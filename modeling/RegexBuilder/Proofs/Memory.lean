/-
# Kept answers change nothing

A session, with and without tables, comes out as what the questions are told (`asking_matches`).

* The rules of a tidy graph are neat, so what they write does not depend on what the output held before.
* An answer that was kept is the meaning of the question (`Session.IsValid`). It does not hide a cycle: the question
  is settled, and wherever it is asked, what is open needs it (`Graph.told_eq_of_settled`).
-/

import RegexBuilder.Proofs.Cycle
import RegexBuilder.Proofs.Neat

namespace RegexBuilder

/-! ### Valid sessions -/

namespace Session

/-- Every answer that was kept is the meaning of its question, and a subtraction that belongs to it
was noted. -/
def IsValid (g : Graph) (s : Session) : Prop :=
  ∀ q i a, (s.kept q).lookup i = some a →
    ∃ e fl, g.meaning e q (some i) = .ok (a, fl) ∧ (fl = true → s.subtraction = true)

variable {g : Graph} {s s' : Session}

theorem isValid_empty (g : Graph) : ({} : Session).IsValid g := fun q i a h => by
  cases q <;> cases h

theorem IsValid.of_kept (h : s.IsValid g) (hkept : ∀ q, s'.kept q = s.kept q)
    (hsub : s.subtraction = true → s'.subtraction = true) : s'.IsValid g := by
  intro q i a ha
  obtain ⟨e, fl, hmeaning, hfl⟩ := h q i a (hkept q ▸ ha)
  exact ⟨e, fl, hmeaning, fun hf => hsub (hfl hf)⟩

theorem out_keep (q : Question) (i : NodeId) (a : q.Answer) (s : Session) :
    (s.keep q i a).out = s.out := by cases q <;> rfl

theorem subtraction_keep (q : Question) (i : NodeId) (a : q.Answer) (s : Session) :
    (s.keep q i a).subtraction = s.subtraction := by cases q <;> rfl

/-- An answer that is the meaning of its question may be kept. -/
theorem IsValid.keep (h : s.IsValid g) {q : Question} {i : NodeId} {a : q.Answer} {e : Nat}
    {fl : Bool} (ha : g.meaning e q (some i) = .ok (a, fl))
    (hfl : fl = true → s.subtraction = true) : (s.keep q i a).IsValid g := by
  unfold IsValid
  rw [subtraction_keep]
  exact forall_kept_keep h ⟨e, fl, ha, hfl⟩

end Session

/-- The outcome `y` in a session that began as `s₀` is the outcome `x` on a draft: the same failure, or the same answer
with the draft at the end of the output and its subtractions noted. -/
def Matches {α : Type} (g : Graph) (s₀ : Session) (y : Except Failure (α × Session)) :
    Except Failure (α × Draft) → Prop
  | .error f => y = .error f
  | .ok (a, dr) => ∃ s, y = .ok (a, s) ∧ s.out = s₀.out ++ dr.text ∧
      s.subtraction = (s₀.subtraction || dr.subtraction) ∧ s.IsValid g

/-- What a question is told, as the draft that it leaves. -/
def Oracle.draft (A : Oracle) (q : Question) (r : Ref) : Except Failure (q.Answer × Draft) :=
  A q r >>= fun x => .ok (x.1, ({} : Draft).answered x)

/-! ### Rules -/

/-- **A rule in a session does what it does on its own draft,** if that is so of what it asks. -/
theorem Rule.Neat.run_matches {α : Type} {g : Graph} {A : Oracle} {asking : Asking} {o : Open}
    {own : Question} {i : NodeId} {s₀ : Session} (hs₀ : s₀.out.IsComplete) (hpending : g.Pending o own (some i))
    (hA : ∀ q r x, A q r = .ok x → ∃ e, g.meaning e q r = .ok x)
    (hask : ∀ q r s, g.Pending (o.enter own i) q r → s.IsValid g → s.out.IsComplete →
      Matches g s (asking q r s) (A.draft q r)) {Q : α → Draft → Prop} {p : Rule α} {dr : Draft} (hneat : p.Neat A Q dr)
    (hrest : g.Remains own i p dr) {s : Session} (hout : s.out = s₀.out ++ dr.text)
    (hsub : s.subtraction = (s₀.subtraction || dr.subtraction)) (hs : s.IsValid g) :
    Matches g s₀ (p.run asking s₀.out.length s) (p.eval A dr) := by
  induction p generalizing dr s with
  | done => exact ⟨s, rfl, hout, hsub, hs⟩
  | objection | fault => rfl
  | output t next ih =>
    refine ih hneat hrest ?_ hsub (hs.of_kept (s.kept_write t) id)
    show s.out ++ t = s₀.out ++ (dr.text ++ t)
    rw [hout, List.append_assoc]
  | reading next ih =>
    have htext : s.out.drop s₀.out.length = dr.text := by rw [hout, List.drop_left]
    rw [run_reading, htext]
    exact ih _ hneat hrest hout hsub hs
  | separation place next ih =>
    refine ih hneat.2 hrest ?_ hsub (hs.of_kept (s.kept_separateEscape _) id)
    show Session.separate (s₀.out.length + place) s.out = _
    rw [hout, Session.separate_append hs₀ hneat.1]
  | subtraction next ih =>
    refine ih hneat hrest hout ?_ (hs.of_kept (s.kept_subtraction true) fun _ => rfl)
    exact (Bool.or_true _).symm
  | question q r next ih =>
    have hcomplete : s.out.IsComplete := by
      rw [hout]
      exact Text.isComplete_append hs₀ hneat.1
    have hq := hask q r s (hpending.enter hrest) hs hcomplete
    rw [run_question, eval]
    unfold Oracle.draft at hq
    cases hx : A q r with
    | error f =>
      rw [hx] at hq
      have hq : asking q r s = .error f := hq
      rw [hq]
      rfl
    | ok x =>
      rw [hx] at hq
      obtain ⟨s', hs', hout', hsub', hvalid'⟩ := hq
      rw [hs']
      obtain ⟨e, he⟩ := hA q r x hx
      refine ih x.1 (hneat.2 x hx) (hrest.answered he) ?_ ?_ hvalid'
      · rw [hout', hout, List.append_assoc]
        rfl
      · rw [hsub', hsub, Bool.or_assoc]
        rfl

/-! ### Questions -/

namespace Graph

variable {g : Graph}

variable {keep : Bool} {d : Nat} {o : Open} {q : Question} {i : NodeId} {s : Session}

/-- An answer from the table is what the question is told. -/
theorem matches_kept (hd : g.unopened o < d) (hpending : g.Pending o q (some i)) (hs : s.IsValid g) {a : q.Answer}
    (hk : (if keep then (s.kept q).lookup i else none) = some a) (rule : Ask q.Answer) :
    Matches g s (visit keep o q i rule s) ((g.told d o).draft q (some i)) := by
  have hlookup : (s.kept q).lookup i = some a := by
    cases keep with
    | true => exact hk
    | false => cases hk
  obtain ⟨e, fl, hmeaning, hfl⟩ := hs q i a hlookup
  have htold : g.told d o q (some i) = .ok (a, fl) := by
    rw [told_eq_of_settled e hd hpending (settled_of_eq_ok hmeaning), hmeaning]
  rw [visit_kept hk, Oracle.draft, htold]
  refine ⟨_, rfl, rfl, ?_, hs.of_kept (s.kept_write _) id⟩
  show s.subtraction = (s.subtraction || (false || fl))
  cases fl with
  | false => exact (Bool.or_false _).symm
  | true =>
    rw [hfl rfl]
    rfl

/-- A new question is answered by the node's rule, and the answer may be kept. -/
theorem matches_new {n : Node} (hn : g.node? i = some n) (hi : i ∉ o q)
    (hk : (if keep then (s.kept q).lookup i else none) = none)
    (hneat : (n.rule g i q).Neat (g.told d (o.enter q i)) (fun a dr => dr.text = q.shown a) {})
    {rule : Ask q.Answer}
    (hrun : Matches g s (rule s) ((n.rule g i q).eval (g.told d (o.enter q i)) {})) :
    Matches g s (visit keep o q i rule s) ((g.told (d + 1) o).draft q (some i)) := by
  have hmeaning : ∀ x, g.told (d + 1) o q (some i) = .ok x →
      g.meaning (d + 1) q (some i) = .ok x := fun _ => meaning_of_told_eq_ok
  rw [told_new hn d hi, answerOf] at hmeaning
  rw [visit_new hk hi, Oracle.draft, told_new hn d hi, answerOf]
  cases heval : (n.rule g i q).eval (g.told d (o.enter q i)) {} with
  | error f =>
    rw [heval] at hrun
    have hrun : rule s = .error f := hrun
    rw [hrun]
    rfl
  | ok x =>
    obtain ⟨a, dr⟩ := x
    rw [heval] at hrun hmeaning
    obtain ⟨s', hs', hout, hsub, hvalid⟩ := hrun
    have htext : dr.text = q.shown a := hneat.of_eval_eq_ok heval
    rw [hs']
    refine ⟨_, rfl, ?_, ?_, ?_⟩
    · show (if keep then s'.keep q i a else s').out = s.out ++ q.shown a
      rw [apply_ite Session.out, Session.out_keep, ite_self, hout, htext]
    · show (if keep then s'.keep q i a else s').subtraction =
        (s.subtraction || (false || dr.subtraction))
      rw [apply_ite Session.subtraction, Session.subtraction_keep, ite_self, hsub]
      rfl
    · cases keep with
      | false => exact hvalid
      | true =>
        refine hvalid.keep (hmeaning _ rfl) fun hfl => ?_
        rw [hsub, hfl, Bool.or_true]

/-- **Both ways of running a session answer what the questions are told.** -/
theorem asking_matches (hg : g.IsTidy) (keep : Bool) :
    ∀ {d : Nat} {o : Open} (q : Question) (r : Ref) (s : Session), g.unopened o < d →
      g.Pending o q r → s.IsValid g → s.out.IsComplete →
      Matches g s (g.asking keep d o q r s) ((g.told d o).draft q r)
  | 0, _, _, _, _, hd, _, _, _ => absurd hd (Nat.not_lt_zero _)
  | d + 1, o, q, r, s, hd, hpending, hs, hcomplete => by
    rcases g.absent_or_node r with hr | ⟨i, n, rfl, hn⟩
    · rw [asking, level_absent hr, Oracle.draft, told_absent hr]
      refine ⟨s, rfl, ?_, (Bool.or_false _).symm, hs⟩
      cases q <;> exact (List.append_nil _).symm
    · rw [asking, level_node hn]
      cases hk : (if keep then (s.kept q).lookup i else none) with
      | some => exact matches_kept hd hpending hs hk _
      | none =>
        by_cases hi : i ∈ o q
        · rw [visit_open hk hi, Oracle.draft, told_open hn d hi]
          rfl
        · have hd' := unopened_enter_lt (lt_size_of_node? hn) hi
          have hneat : (n.rule g i q).Neat (g.told d (o.enter q i)) (fun a dr => dr.text = q.shown a) {} :=
            (rule_neat hg d hn q).of_answers fun _ _ _ => meaning_of_told_eq_ok
          refine matches_new hn hi hk hneat ?_
          exact hneat.run_matches hcomplete hpending (fun _ _ _ hx => ⟨d, meaning_of_told_eq_ok hx⟩)
            (fun q' r' s' hp hs' hc => asking_matches hg keep q' r' s' (by omega) hp hs' hc)
            (remains_rule hn) (List.append_nil _).symm (Bool.or_false _).symm hs

end Graph
end RegexBuilder
