/-
# Quiet questions

What a pattern comes down to, whether it is empty and whether it is single are *quiet* questions. Their rules neither
write nor look at what is written, and they ask only quiet questions. So in every graph a session answers them with
what they mean, whatever stands in its output (`Graph.asking_learns_of_meansAt`). `Rule.Finds` is what a quiet rule
makes of the meanings of its questions, without drafts and heights.
-/

import RegexBuilder.Proofs.Emptiness
import RegexBuilder.Proofs.Memory

namespace RegexBuilder

/-! ### What a quiet rule finds -/

namespace Rule

/-- The rule comes to the answer `b` with answers from `M`, and asks only quiet questions on its way. -/
def Finds {α : Type} (M : Constraint) : Rule α → α → Prop
  | done a, b => a = b
  | question q r next, b => q ≠ .text ∧ ∃ a, M q r a ∧ (next a).Finds M b
  | objection _ _, _ | fault _, _ | output _ _, _ | reading _, _ | separation _ _, _ | subtraction _, _ => False

section

variable {α β : Type} {M M' : Constraint} {a : α}

@[simp] theorem finds_pure {b : α} : (pure a : Rule α).Finds M b ↔ a = b := Iff.rfl

/-- What is found is found step by step. -/
@[simp] theorem finds_bind {p : Rule α} {k : α → Rule β} {b : β} :
    (p >>= k).Finds M b ↔ ∃ a, p.Finds M a ∧ (k a).Finds M b := by
  induction p with
  | done a => exact ⟨fun h => ⟨a, rfl, h⟩, fun ⟨_, ha, h⟩ => ha ▸ h⟩
  | question q r next ih =>
    constructor
    · rintro ⟨hq, c, hc, h⟩
      obtain ⟨a, ha, h⟩ := (ih c).1 h
      exact ⟨a, ⟨hq, c, hc, ha⟩, h⟩
    · rintro ⟨a, ⟨hq, c, hc, ha⟩, h⟩
      exact ⟨hq, c, hc, (ih c).2 ⟨a, ha, h⟩⟩
  | _ => exact ⟨False.elim, fun ⟨_, h, _⟩ => h.elim⟩

@[simp] theorem finds_ask {q : Question} (hq : q ≠ .text) {r : Ref} {a : q.Answer} : (ask q r).Finds M a ↔ M q r a :=
  ⟨fun ⟨_, _, hb, h⟩ => h ▸ hb, fun h => ⟨hq, a, h, rfl⟩⟩

theorem Finds.mono (hM : ∀ q r a, M q r a → M' q r a) {p : Rule α} (h : p.Finds M a) : p.Finds M' a := by
  induction p with
  | done => exact h
  | question q r next ih =>
    obtain ⟨hq, b, hb, h⟩ := h
    exact ⟨hq, b, hM q r b hb, ih b h⟩
  | _ => exact h.elim

end

end Rule

/-! ### Meanings of quiet questions -/

namespace Graph

/-- The answers that questions mean at the height `e`. -/
def MeansAt (g : Graph) (e : Nat) : Constraint := fun q r a => ∃ fl, g.meaning e q r = .ok (a, fl)

/-- The answers that questions mean. -/
def Means (g : Graph) : Constraint := fun q r a => ∃ e, g.MeansAt e q r a

variable {g : Graph} {q : Question} {r : Ref} {i : NodeId} {n : Node}

theorem MeansAt.mono {e e' : Nat} {a : q.Answer} (h : g.MeansAt e q r a) (he : e ≤ e') : g.MeansAt e' q r a := by
  obtain ⟨fl, h⟩ := h
  exact ⟨fl, (settled_of_eq_ok h).meaning_eq_of_le he ▸ h⟩

/-- **A question has one answer.** -/
theorem Means.unique {a a' : q.Answer} : g.Means q r a → g.Means q r a' → a = a' := by
  rintro ⟨e, fl, h⟩ ⟨e', fl', h'⟩
  exact congrArg Prod.fst (eq_of_meaning_eq_ok h h')

theorem means_absent (h : g.deref? r = none) : g.Means q r q.absent := ⟨1, false, meaning_absent h 0⟩

/-- A rule that finds an answer at some heights finds it at one height. -/
theorem exists_findsAt {α : Type} {a : α} {p : Rule α} (h : p.Finds g.Means a) : ∃ e, p.Finds (g.MeansAt e) a := by
  induction p with
  | done => exact ⟨0, h⟩
  | question q r next ih =>
    obtain ⟨hq, b, ⟨e, hb⟩, h⟩ := h
    obtain ⟨e', h⟩ := ih b h
    refine ⟨max e e', hq, b, hb.mono (Nat.le_max_left ..), h.mono fun _ _ _ hc => ?_⟩
    exact hc.mono (Nat.le_max_right ..)
  | _ => exact h.elim

/-- What a rule finds is its answer on every draft. -/
theorem exists_eval_of_finds {α : Type} {e : Nat} {a : α} {p : Rule α} (h : p.Finds (g.MeansAt e) a) (dr : Draft) :
    ∃ dr', p.eval (g.meaning e) dr = .ok (a, dr') := by
  induction p generalizing dr with
  | done b => exact ⟨dr, by rw [← show b = a from h]; rfl⟩
  | question q r next ih =>
    obtain ⟨-, b, ⟨fl, hb⟩, h⟩ := h
    rw [Rule.eval, hb]
    exact ih b h _
  | _ => exact h.elim

end Graph

variable {α : Type} {g : Graph} {i : NodeId} {own : Question}

/-- **A rule that is not for a text finds its answer quietly.** -/
theorem Rule.Follows.finds {e : Nat} {Q : α → Prop} (hown : own ≠ .text) {p : Rule α} (hp : p.Follows g i own Q)
    {dr dr' : Draft} {a : α} (h : p.eval (g.meaning e) dr = .ok (a, dr')) : p.Finds (g.MeansAt e) a := by
  induction p generalizing dr with
  | done => cases h; rfl
  | objection | fault => cases h
  | output | reading | separation | subtraction => exact absurd hp.1 hown
  | question q r next ih =>
    obtain ⟨⟨b, fl⟩, hb, h⟩ := bind_eq_ok.1 h
    exact ⟨hp.1.ne_text hown, b, ⟨fl, hb⟩, ih b (hp.2 b (Graph.sound_of_meaning_eq_ok e q r _ hb)) h⟩

namespace Graph

variable {g : Graph} {q : Question} {r : Ref} {i : NodeId} {n : Node}

theorem exists_findsAt_of_meansAt (hn : g.node? i = some n) (hq : q ≠ .text) {e : Nat} {a : q.Answer}
    (h : g.MeansAt e q (some i) a) : ∃ e', e = e' + 1 ∧ (n.rule g i q).Finds (g.MeansAt e') a := by
  obtain ⟨fl, h⟩ := h
  obtain ⟨e', dr, he, heval⟩ := exists_eval_of_meaning hn h
  exact ⟨e', he, (Node.rule_follows hn q).finds hq heval⟩

/-- **A quiet question about a node means what the node's rule finds.** -/
theorem means_node (hn : g.node? i = some n) (hq : q ≠ .text) {a : q.Answer} :
    g.Means q (some i) a ↔ (n.rule g i q).Finds g.Means a := by
  constructor
  · rintro ⟨e, h⟩
    obtain ⟨e', -, h⟩ := exists_findsAt_of_meansAt hn hq h
    exact h.mono fun _ _ _ hb => ⟨e', hb⟩
  · intro h
    obtain ⟨e, h⟩ := exists_findsAt h
    obtain ⟨dr, h⟩ := exists_eval_of_finds h {}
    refine ⟨e + 1, dr.subtraction, ?_⟩
    rw [meaning_node hn, answerOf, h]
    rfl

/-- All three quiet questions about the pattern have a meaning. -/
structure IsClear (g : Graph) (r : Ref) : Prop where
  core : ∃ u, g.Means .core r u
  empty : ∃ b, g.Means .empty r b
  single : ∃ c, g.Means .single r c

/-- What the answers of a session say: those to quiet questions are meanings, and a pattern that was written is
clear. -/
def Attests (g : Graph) : Constraint
  | .text, r, _ => g.IsClear r
  | .core, r, u => g.Means .core r u
  | .empty, r, b => g.Means .empty r b
  | .single, r, c => g.Means .single r c

theorem attests_iff (hq : q ≠ .text) {a : q.Answer} : g.Attests q r a ↔ g.Means q r a := by
  cases q with
  | text => exact absurd rfl hq
  | core | empty | single => exact Iff.rfl

end Graph

/-- What a quiet rule answers it finds. -/
theorem Rule.Follows.upholds_finds {Q : α → Prop} (hown : own ≠ .text) {p : Rule α} (hp : p.Follows g i own Q) :
    p.Upholds g.Attests (p.Finds g.Means) := by
  induction p with
  | done => exact rfl
  | objection | fault => trivial
  | output | reading | separation | subtraction => exact absurd hp.1 hown
  | question q r next ih =>
    intro b hb
    have hq := hp.1.ne_text hown
    have hb := (Graph.attests_iff hq).1 hb
    obtain ⟨e, fl, he⟩ := hb
    refine (ih b (hp.2 b (Graph.sound_of_meaning_eq_ok e q r _ he))).mono fun a ha => ?_
    exact ⟨hq, b, ⟨e, fl, he⟩, ha⟩

/-! ### Quiet questions in a session -/

/-- From `s` to `s'` the session has only learned answers to quiet questions. -/
structure Session.Learns (g : Graph) (s s' : Session) : Prop where
  out : s'.out = s.out
  subtraction : s'.subtraction = s.subtraction
  texts : s'.texts = s.texts
  upholds : s'.Upholds g.Attests

namespace Session

variable {g : Graph} {s s' s'' : Session}

theorem Learns.refl (hs : s.Upholds g.Attests) : s.Learns g s := ⟨rfl, rfl, rfl, hs⟩

theorem Learns.trans (h : s.Learns g s') (h' : s'.Learns g s'') : s.Learns g s'' :=
  ⟨h'.out.trans h.out, h'.subtraction.trans h.subtraction, h'.texts.trans h.texts, h'.upholds⟩

/-- An answer that is right is learned. -/
theorem Learns.keep (h : s.Learns g s') {q : Question} (hq : q ≠ .text) {i : NodeId} {a : q.Answer}
    (ha : g.Means q (some i) a) : s.Learns g (s'.keep q i a) := by
  refine ⟨(out_keep q i a s').trans h.out, (subtraction_keep q i a s').trans h.subtraction, ?_,
    h.upholds.keep ((Graph.attests_iff hq).2 ha)⟩
  cases q with
  | text => exact absurd rfl hq
  | core | empty | single => exact h.texts

end Session

/-- A rule that finds an answer finds it in a session whose questions are answered so. -/
theorem Rule.Finds.run_learns {M : Constraint} {asking : Asking}
    (hask : ∀ q r a s, q ≠ .text → M q r a → s.Upholds g.Attests → ∃ s', asking q r s = .ok (a, s') ∧ s.Learns g s')
    {p : Rule α} {a : α} (h : p.Finds M a) (base : Nat) {s : Session} (hs : s.Upholds g.Attests) :
    ∃ s', p.run asking base s = .ok (a, s') ∧ s.Learns g s' := by
  induction p generalizing s with
  | done b => exact ⟨s, by rw [← show b = a from h]; rfl, .refl hs⟩
  | question q r next ih =>
    obtain ⟨hq, b, hb, h⟩ := h
    obtain ⟨s₁, h₁, hlearns₁⟩ := hask q r b s hq hb hs
    obtain ⟨s₂, h₂, hlearns₂⟩ := ih b h hlearns₁.upholds
    exact ⟨s₂, by rw [run_question, h₁]; exact h₂, hlearns₁.trans hlearns₂⟩
  | _ => exact h.elim

namespace Graph

variable {g : Graph}

/-- **A quiet question that has a meaning is answered with it,** if nothing that is open has its meaning already at
that height: then it is not met again. -/
theorem asking_learns_of_meansAt : ∀ (e : Nat) {d : Nat} {o : Open} {q : Question} {r : Ref} {a : q.Answer}
    {s : Session}, q ≠ .text → g.MeansAt e q r a → (∀ p ≠ .text, ∀ j ∈ o p, ¬ g.Settled e p (some j)) →
      g.unopened o < d → s.Upholds g.Attests → ∃ s', g.asking true d o q r s = .ok (a, s') ∧ s.Learns g s'
  | 0, _, _, _, _, _, _, _, ⟨_, h⟩, _, _, _ => nomatch h
  | _ + 1, 0, _, _, _, _, _, _, _, _, hd, _ => absurd hd (Nat.not_lt_zero _)
  | e + 1, d + 1, o, q, r, a, s, hq, ⟨fl, h⟩, hopen, hd, hs => by
    have hopen' : ∀ p ≠ .text, ∀ j ∈ o p, ¬ g.Settled e p (some j) := fun p hp j hj hset =>
      hopen p hp j hj (hset.mono (Nat.le_succ e))
    by_cases hset : g.Settled e q r
    · have h : g.MeansAt e q r a := ⟨fl, hset.meaning_eq_of_le (Nat.le_succ e) ▸ h⟩
      exact asking_learns_of_meansAt e hq h hopen' hd hs
    rcases g.absent_or_node r with hr | ⟨i, n, rfl, hn⟩
    · rw [meaning_absent hr] at h
      cases h
      exact ⟨s, level_absent hr s, .refl hs⟩
    · rw [asking, level_node hn]
      cases hk : (if true then (s.kept q).lookup i else none) with
      | some b =>
        have hb : g.Means q (some i) b := (attests_iff hq).1 (hs q i b hk)
        cases hb.unique ⟨e + 1, fl, h⟩
        refine ⟨_, visit_kept hk, ?_, rfl, rfl, hs.of_kept (s.kept_write _)⟩
        cases q with
        | text => exact absurd rfl hq
        | core | empty | single => exact List.append_nil _
      | none =>
        have hi : i ∉ o q := fun hi => hopen q hq i hi (settled_of_eq_ok h)
        have hd' := unopened_enter_lt (lt_size_of_node? hn) hi
        have hopen'' : ∀ p ≠ .text, ∀ j ∈ o.enter q i p, ¬ g.Settled e p (some j) := by
          intro p hp j hj
          by_cases hpq : p = q
          · subst hpq
            rw [Open.enter_self, List.mem_append, List.mem_singleton] at hj
            rcases hj with hj | rfl
            · exact hopen' p hp j hj
            · exact hset
          · rw [Open.enter_of_ne o hpq] at hj
            exact hopen' p hp j hj
        obtain ⟨e', he, hfinds⟩ := exists_findsAt_of_meansAt hn hq ⟨fl, h⟩
        cases he
        have hask : ∀ q' r' b s', q' ≠ .text → g.MeansAt e q' r' b → s'.Upholds g.Attests →
            ∃ s'', g.asking true d (o.enter q i) q' r' s' = .ok (b, s'') ∧ s'.Learns g s'' :=
          fun _ _ _ _ hq' hb hs' => asking_learns_of_meansAt e hq' hb hopen'' (by omega) hs'
        obtain ⟨s', hrun, hlearns⟩ := hfinds.run_learns hask s.out.length hs
        refine ⟨s'.keep q i a, ?_, hlearns.keep hq ⟨e + 1, fl, h⟩⟩
        rw [visit_new hk hi, Rule.start_apply, hrun]
        rfl

end Graph
end RegexBuilder
