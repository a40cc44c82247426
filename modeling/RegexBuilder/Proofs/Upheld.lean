/-
# What all answers have in common

Let `A` relate every question and every reference to the answers that they may have. If the rule of
each node upholds `A`, provided that the answers to its own questions do, then so do all answers of a
session, those that are taken from its tables included (`Graph.asking_upholds`). Nothing is said about
questions that fail.
-/

import RegexBuilder.Proofs.Depth
import RegexBuilder.Proofs.Descent

namespace RegexBuilder

/-- The answers that a question about a reference may have. -/
abbrev Constraint := (q : Question) → Ref → q.Answer → Prop

/-! ### Rules -/

namespace Rule

/-- The answer of the rule satisfies `Q`, provided that the answers to its questions satisfy `A`. -/
def Upholds {α : Type} (A : Constraint) (Q : α → Prop) : Rule α → Prop
  | done a => Q a
  | objection _ _ | fault _ => True
  | output _ next | separation _ next | subtraction next => next.Upholds A Q
  | reading next => ∀ t, (next t).Upholds A Q
  | question q r next => ∀ a, A q r a → (next a).Upholds A Q

namespace Upholds

variable {α β : Type} {A : Constraint} {Q : α → Prop} {Q' : β → Prop}

/-- Rules that uphold answers may follow each other. -/
theorem bind {p : Rule α} {k : α → Rule β} (h : p.Upholds A Q) (hk : ∀ a, Q a → (k a).Upholds A Q') :
    (p >>= k).Upholds A Q' := by
  induction p with
  | done a => exact hk a h
  | objection | fault => trivial
  | output t next ih | separation place next ih | subtraction next ih => exact ih h
  | reading next ih => exact fun t => ih t (h t)
  | question q r next ih => exact fun a ha => ih a (h a ha)

theorem mono {p : Rule α} {R : α → Prop} (h : p.Upholds A Q) (hQ : ∀ a, Q a → R a) :
    p.Upholds A R := p.bind_done ▸ h.bind hQ

theorem ask (q : Question) (r : Ref) : (Rule.ask q r).Upholds A (A q r) := fun _ ha => ha

theorem pure {a : α} (h : Q a) : (pure a : Rule α).Upholds A Q := h

/-- What holds of every answer at all is upheld. -/
theorem of_forall (p : Rule α) (h : ∀ a, Q a) : p.Upholds A Q := by
  induction p with
  | done a => exact h a
  | objection | fault => trivial
  | output t next ih | reading next ih | separation place next ih | subtraction next ih => exact ih
  | question q r next ih => exact fun a _ => ih a

end Upholds

/-- The two rules do the same, provided that the answers to their questions satisfy `A`. -/
inductive SameUnder {α : Type} (A : Constraint) : Rule α → Rule α → Prop where
  | refl (p : Rule α) : SameUnder A p p
  | question (q : Question) (r : Ref) {next next' : q.Answer → Rule α}
    (h : ∀ a, A q r a → SameUnder A (next a) (next' a)) :
    SameUnder A (.question q r next) (.question q r next')

end Rule

/-! ### Sessions -/

namespace Session

theorem kept_keep_self (q : Question) (i : NodeId) (a : q.Answer) (s : Session) :
    (s.keep q i a).kept q = (i, a) :: s.kept q := by cases q <;> rfl

variable {q : Question} {i : NodeId}

theorem kept_keep_of_ne {p : Question} (h : p ≠ q) (i : NodeId) (a : q.Answer) (s : Session) :
    (s.keep q i a).kept p = s.kept p := by cases p <;> cases q <;> first | rfl | exact absurd rfl h

/-- What holds of the answers that were kept and of a new one holds once that is kept too. -/
theorem forall_kept_keep {P : (q : Question) → NodeId → q.Answer → Prop} {s : Session}
    (h : ∀ p j b, (s.kept p).lookup j = some b → P p j b) {a : q.Answer} (ha : P q i a) :
    ∀ p j b, ((s.keep q i a).kept p).lookup j = some b → P p j b := by
  intro p j b hb
  by_cases hp : p = q
  · subst hp
    rw [kept_keep_self, List.lookup_cons] at hb
    split at hb
    · next hji =>
      cases hb
      exact LawfulBEq.eq_of_beq hji ▸ ha
    · exact h p j b hb
  · rw [kept_keep_of_ne hp] at hb
    exact h p j b hb

theorem kept_write (t : Text) (s : Session) (q : Question) : (s.write t).kept q = s.kept q := by
  cases q <;> rfl

theorem kept_separateEscape (place : Nat) (s : Session) (q : Question) :
    (s.separateEscape place).kept q = s.kept q := by cases q <;> rfl

theorem kept_subtraction (b : Bool) (s : Session) (q : Question) :
    ({ s with subtraction := b } : Session).kept q = s.kept q := by cases q <;> rfl

/-- The answers that were kept satisfy `A`. -/
def Upholds (A : Constraint) (s : Session) : Prop :=
  ∀ q i a, (s.kept q).lookup i = some a → A q (some i) a

variable {A : Constraint} {s s' : Session}

theorem upholds_empty (A : Constraint) : ({} : Session).Upholds A := fun q i a h => by
  cases q <;> cases h

theorem Upholds.of_kept (h : s.Upholds A) (hs : ∀ q, s'.kept q = s.kept q) : s'.Upholds A :=
  fun q i a ha => h q i a (hs q ▸ ha)

/-- An answer that is upheld may be kept. -/
theorem Upholds.keep (h : s.Upholds A) {a : q.Answer} (ha : A q (some i) a) : (s.keep q i a).Upholds A :=
  forall_kept_keep h ha

end Session

/-- An answer satisfies `A`, and so do the answers that were kept until then. -/
abbrev Answered (A : Constraint) (q : Question) (r : Ref) (a : q.Answer) (s : Session) : Prop :=
  A q r a ∧ s.Upholds A

variable {α : Type} {A : Constraint} {asking : Asking} {keep : Bool} {o : Open} {q : Question} {i : NodeId}
  {E : Failure → Prop}

/-- A rule that upholds `A` does so in a session. -/
theorem Rule.Upholds.run_ensures {Q : α → Prop}
    (hask : ∀ q r, Ensures (·.Upholds A) (asking q r) (Answered A q r) fun _ => True) {p : Rule α} (h : p.Upholds A Q)
    (base : Nat) : Ensures (·.Upholds A) (p.run asking base) (fun a s => Q a ∧ s.Upholds A) fun _ => True := by
  induction p with
  | done => exact .pure fun s hs => ⟨h, hs⟩
  | objection | fault => exact .throw trivial
  | output t next ih => exact fun s hs => ih h _ (hs.of_kept (s.kept_write t))
  | reading next ih => exact fun s hs => ih _ (h (s.out.drop base)) s hs
  | separation place next ih =>
    exact fun s hs => ih h _ (hs.of_kept (s.kept_separateEscape (base + place)))
  | subtraction next ih => exact fun s hs => ih h _ (hs.of_kept (s.kept_subtraction true))
  | question q r next ih => exact (hask q r).bind fun a s hs => ih a (h a hs.1) s hs.2

/-- Rules that do the same under `A` do the same in a session in which all answers satisfy `A`, if their
questions are answered alike. -/
theorem Rule.SameUnder.run_eq {asking' : Asking}
    (hask : ∀ q r, Ensures (·.Upholds A) (asking q r) (Answered A q r) fun _ => True)
    (heq : ∀ q r s, s.Upholds A → asking q r s = asking' q r s) {p p' : Rule α} (h : p.SameUnder A p') (base : Nat)
    {s : Session} (hs : s.Upholds A) : p.run asking base s = p'.run asking' base s := by
  have hquestion : ∀ (q : Question) (r : Ref) {next next' : q.Answer → Rule α} {s : Session},
      s.Upholds A → (∀ a s', A q r a → s'.Upholds A →
        (next a).run asking base s' = (next' a).run asking' base s') →
      (Rule.question q r next).run asking base s = (Rule.question q r next').run asking' base s := by
    intro q r next next' s hs hnext
    rw [run_question, run_question, ← heq q r s hs]
    cases ha : asking q r s with
    | error => rfl
    | ok x =>
      obtain ⟨hx, hs'⟩ := (hask q r s hs).1 x.1 x.2 ha
      exact hnext x.1 x.2 hx hs'
  induction h generalizing s with
  | question q r _ ih => exact hquestion q r hs fun a s' ha hs' => ih a ha hs'
  | refl p =>
    induction p generalizing s with
    | done | objection | fault => rfl
    | output t next ih => exact ih (hs.of_kept (s.kept_write t))
    | reading next ih => exact ih _ hs
    | separation place next ih => exact ih (hs.of_kept (s.kept_separateEscape (base + place)))
    | subtraction next ih => exact ih (hs.of_kept (s.kept_subtraction true))
    | question q r next ih => exact hquestion q r hs fun a s' _ hs' => ih a hs'

/-- **A visit ensures what the rule of the node ensures,** if that also holds of an answer that was kept and is
not lost by keeping one. -/
theorem visit_ensures {rule : Ask q.Answer} {P : Session → Prop} {Q : q.Answer → Session → Prop}
    (hkept : ∀ s a, P s → (s.kept q).lookup i = some a → Q a (s.write (q.shown a)))
    (hopen : i ∈ o q → E (.recursion q.query (o q ++ [i]))) (hrule : i ∉ o q → Ensures P rule Q E)
    (hkeep : ∀ a s, Q a s → Q a (s.keep q i a)) : Ensures P (visit keep o q i rule) Q E := by
  intro s hs
  cases hk : (if keep then (s.kept q).lookup i else none) with
  | some b =>
    rw [visit_kept hk]
    refine ⟨fun a s' h => ?_, fun f hf => by cases hf⟩
    cases h
    cases keep with
    | false => cases hk
    | true => exact hkept s b hs hk
  | none =>
    by_cases hi : i ∈ o q
    · rw [visit_open hk hi]
      refine ⟨fun a s' h => (by cases h), fun f hf => ?_⟩
      cases hf
      exact hopen hi
    · rw [visit_new hk hi]
      obtain ⟨hok, herr⟩ := hrule hi s hs
      refine ⟨fun a s' h => ?_, fun f hf => ?_⟩
      · obtain ⟨⟨b, s₁⟩, hb, h⟩ := bind_eq_ok.1 h
        cases h
        cases keep with
        | false => exact hok b s₁ hb
        | true => exact hkeep b s₁ (hok b s₁ hb)
      · rcases bind_eq_error.1 hf with hf | ⟨_, _, hf⟩
        · exact herr f hf
        · cases hf

/-- Answers that satisfy `A` are taken from the tables and kept in them. -/
theorem visit_upholds {rule : Ask q.Answer} (hopen : i ∈ o q → E (.recursion q.query (o q ++ [i])))
    (hrule : i ∉ o q → Ensures (·.Upholds A) rule (Answered A q (some i)) E) :
    Ensures (·.Upholds A) (visit keep o q i rule) (Answered A q (some i)) E :=
  visit_ensures (fun s a hs ha => ⟨hs q i a ha, hs.of_kept (s.kept_write _)⟩) hopen hrule
    fun _ _ h => ⟨h.1, h.2.keep h.1⟩

namespace Graph

/-- **How a question comes to an answer:** it is about nothing, the answer was kept, or the rule of the node is run. -/
theorem asking_cases {g : Graph} {d : Nat} {o : Open} {q : Question} {r : Ref} {a : q.Answer} {s s' : Session}
    (h : g.asking true (d + 1) o q r s = .ok (a, s')) :
    (g.deref? r = none ∧ a = q.absent ∧ s' = s) ∨ ∃ i n, r = some i ∧ g.node? i = some n ∧
      ((s.kept q).lookup i = some a ∧ s' = s.write (q.shown a) ∨
        ∃ s₁, (n.rule g i q).run (g.asking true d (o.enter q i)) s.out.length s = .ok (a, s₁) ∧
          s' = s₁.keep q i a) := by
  rw [asking] at h
  rcases g.absent_or_node r with hr | ⟨i, n, rfl, hn⟩
  · rw [level_absent hr] at h
    cases h
    exact .inl ⟨hr, rfl, rfl⟩
  · refine .inr ⟨i, n, rfl, hn, ?_⟩
    rw [level_node hn] at h
    cases hk : (if true then (s.kept q).lookup i else none) with
    | some =>
      rw [visit_kept hk] at h
      cases h
      exact .inl ⟨hk, rfl⟩
    | none =>
      by_cases hi : i ∈ o q
      · rw [visit_open hk hi] at h
        cases h
      · rw [visit_new hk hi] at h
        obtain ⟨⟨b, s₁⟩, hb, h⟩ := bind_eq_ok.1 h
        cases h
        exact .inr ⟨s₁, hb, rfl⟩

/-- What holds where there is no node, and what the rules of the nodes uphold. -/
structure IsUpheld (g : Graph) (A : Constraint) : Prop where
  absent : ∀ q r, g.deref? r = none → A q r q.absent
  rule : ∀ {i n}, g.node? i = some n → ∀ q, (n.rule g i q).Upholds A (A q (some i))

/-- **What the rules uphold holds of every answer.** -/
theorem asking_upholds {g : Graph} {A : Constraint} (hA : g.IsUpheld A) (keep : Bool) :
    ∀ (d : Nat) (o : Open) (q : Question) (r : Ref),
      Ensures (·.Upholds A) (g.asking keep d o q r) (Answered A q r) fun _ => True
  | 0, _, _, _ => .throw trivial
  | d + 1, o, q, r => by
    rw [asking]
    rcases g.absent_or_node r with hr | ⟨i, n, rfl, hn⟩
    · refine fun s hs => ⟨fun a s' h => ?_, fun _ _ => trivial⟩
      rw [level_absent hr] at h
      cases h
      exact ⟨hA.absent q r hr, hs⟩
    · rw [level_node hn]
      exact visit_upholds (fun _ => trivial) fun _ s => (hA.rule hn q).run_ensures (asking_upholds hA keep d _) _ s

end Graph
end RegexBuilder
