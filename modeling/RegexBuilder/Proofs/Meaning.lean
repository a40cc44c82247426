/-
# What questions mean

Here a question is answered by itself: the rule of a node has a draft of its own, and what it asks is answered with a
text that is added to the draft (`Rule.eval`).

* `Graph.meaning` closes the circle with no regard to what is open: it only stops at a given height.
* `Graph.told` also refuses a question that is open already, as a session does.

A question is *settled* at a height if its meaning is not cut off there. Where each open question needs the one that
is asked, a settled question is told its meaning (`Graph.told_eq_of_settled`): if it met an open node again, each of
the two would be settled at a smaller height than the other.
-/

import RegexBuilder.Proofs.Depth

namespace RegexBuilder

/-- The text of a node so far, and whether a subtraction was written. -/
structure Draft where
  text : Text := []
  subtraction : Bool := false

/-- Answers to questions, with the note whether writing the answer notes a subtraction. -/
abbrev Oracle := (q : Question) → Ref → Except Failure (q.Answer × Bool)

/-- Adds to the text. -/
def Draft.write (t : Text) (dr : Draft) : Draft := { dr with text := dr.text ++ t }

/-- Adds what the answer to a question shows. -/
def Draft.answered {q : Question} (x : q.Answer × Bool) (dr : Draft) : Draft :=
  ⟨dr.text ++ q.shown x.1, dr.subtraction || x.2⟩

/-- Runs a rule on a draft of its own. -/
def Rule.eval {α : Type} (A : Oracle) : Rule α → Draft → Except Failure (α × Draft)
  | done a, dr => .ok (a, dr)
  | objection i why, _ => .error (.invalid i why)
  | fault f, _ => .error (.broken f)
  | output t next, dr => next.eval A (dr.write t)
  | reading next, dr => (next dr.text).eval A dr
  | separation place next, dr => next.eval A { dr with text := Session.separate place dr.text }
  | subtraction next, dr => next.eval A { dr with subtraction := true }
  | question q r next, dr => A q r >>= fun x => (next x.1).eval A (dr.answered x)

theorem Rule.eval_bind {α β : Type} (A : Oracle) (p : Rule α) (k : α → Rule β) (dr : Draft) :
    (p >>= k).eval A dr = p.eval A dr >>= fun x => (k x.1).eval A x.2 := by
  induction p generalizing dr with
  | done | objection | fault => rfl
  | output t next ih | separation place next ih | subtraction next ih => exact ih _
  | reading next ih => exact ih _ _
  | question q r next ih =>
    show (A q r >>= fun x => ((next x.1) >>= k).eval A (dr.answered x)) =
      (A q r >>= fun x => (next x.1).eval A (dr.answered x)) >>= fun x => (k x.1).eval A x.2
    cases A q r with
    | error => rfl
    | ok => exact ih _ _

/-- The failures with which a question ends before it has a meaning. -/
def Failure.IsStop : Failure → Prop
  | recursion _ _ | exhausted => True
  | invalid _ _ | broken _ => False

/-- `B` agrees with `A` wherever the outcome of `A` is not one of the failures `bad`. -/
def Oracle.Agrees (bad : Failure → Prop) (A B : Oracle) : Prop :=
  ∀ q r, (∀ f, bad f → A q r ≠ .error f) → B q r = A q r

/-- **A rule that does not fail badly has the same outcome with every oracle that agrees.** -/
theorem Rule.eval_eq_of_agrees {α : Type} {bad : Failure → Prop} {A B : Oracle}
    (h : A.Agrees bad B) (p : Rule α) (dr : Draft) (hp : ∀ f, bad f → p.eval A dr ≠ .error f) :
    p.eval B dr = p.eval A dr := by
  induction p generalizing dr with
  | done | objection | fault => rfl
  | output t next ih | separation place next ih | subtraction next ih => exact ih _ hp
  | reading next ih => exact ih _ _ hp
  | question q r next ih =>
    have hq : B q r = A q r := by
      refine h q r fun f hf hA => hp f hf ?_
      rw [eval, hA]
      rfl
    rw [eval, eval, hq]
    cases hA : A q r with
    | error => rfl
    | ok x =>
      refine ih x.1 (dr.answered x) fun f hf hx => hp f hf ?_
      rw [eval, hA]
      exact hx

namespace Graph

/-- The answer of the node's rule with an oracle for its questions. -/
def answerOf (g : Graph) (A : Oracle) (q : Question) (i : NodeId) (n : Node) :
    Except Failure (q.Answer × Bool) :=
  (n.rule g i q).eval A {} >>= fun x => .ok (x.1, x.2.subtraction)

/-- What the questions mean, down to a height. -/
def meaning (g : Graph) : Nat → Oracle
  | 0, _, _ => .error .exhausted
  | _ + 1, q, none => .ok (q.absent, false)
  | e + 1, q, some i =>
    match g.node? i with
    | none => .ok (q.absent, false)
    | some n => g.answerOf (g.meaning e) q i n

/-- What the questions are told while those of `o` are open, down to a depth. -/
def told (g : Graph) : Nat → Open → Oracle
  | 0, _, _, _ => .error .exhausted
  | _ + 1, _, q, none => .ok (q.absent, false)
  | d + 1, o, q, some i =>
    match g.node? i with
    | none => .ok (q.absent, false)
    | some n =>
      if i ∈ o q then .error (.recursion q.query (o q ++ [i]))
      else g.answerOf (g.told d (o.enter q i)) q i n

section

variable {g : Graph} {q : Question} {r : Ref} {i : NodeId} {n : Node}

theorem meaning_absent (h : g.deref? r = none) (e : Nat) : g.meaning (e + 1) q r = .ok (q.absent, false) := by
  cases r with
  | none => rfl
  | some i =>
    have hi : g.node? i = none := h
    simp only [meaning, hi]

theorem meaning_node (h : g.node? i = some n) (e : Nat) :
    g.meaning (e + 1) q (some i) = g.answerOf (g.meaning e) q i n := by
  simp only [meaning, h]

/-- An answer about a node comes from its rule. -/
theorem exists_eval_of_meaning (hn : g.node? i = some n) {e : Nat} {a : q.Answer} {fl : Bool}
    (h : g.meaning e q (some i) = .ok (a, fl)) :
    ∃ e' dr, e = e' + 1 ∧ (n.rule g i q).eval (g.meaning e') {} = .ok (a, dr) := by
  cases e with
  | zero => cases h
  | succ e =>
    rw [meaning_node hn] at h
    obtain ⟨⟨a', dr⟩, ha, hx⟩ := bind_eq_ok.1 h
    cases hx
    exact ⟨e, dr, rfl, ha⟩

theorem told_absent (h : g.deref? r = none) (d : Nat) (o : Open) : g.told (d + 1) o q r = .ok (q.absent, false) := by
  cases r with
  | none => rfl
  | some i =>
    have hi : g.node? i = none := h
    simp only [told, hi]

theorem told_open (h : g.node? i = some n) (d : Nat) {o : Open} (hi : i ∈ o q) :
    g.told (d + 1) o q (some i) = .error (.recursion q.query (o q ++ [i])) := by
  simp only [told, h, if_pos hi]

theorem told_new (h : g.node? i = some n) (d : Nat) {o : Open} (hi : i ∉ o q) :
    g.told (d + 1) o q (some i) = g.answerOf (g.told d (o.enter q i)) q i n := by
  simp only [told, h, if_neg hi]

theorem answerOf_eq_of_agrees {bad : Failure → Prop} {A B : Oracle} (h : A.Agrees bad B)
    (hA : ∀ f, bad f → g.answerOf A q i n ≠ .error f) : g.answerOf B q i n = g.answerOf A q i n := by
  unfold answerOf at hA ⊢
  rw [Rule.eval_eq_of_agrees h]
  intro f hf hp
  exact hA f hf (by rw [hp]; rfl)

end

/-! ### Settled questions -/

/-- The question has a meaning at the height. -/
def Settled (g : Graph) (e : Nat) (q : Question) (r : Ref) : Prop :=
  g.meaning e q r ≠ .error .exhausted

variable {g : Graph}

/-- A greater height agrees with a smaller one. -/
theorem agrees_meaning_succ : ∀ e, (g.meaning e).Agrees (· = .exhausted) (g.meaning (e + 1))
  | 0, _, _, h => absurd rfl (h .exhausted rfl)
  | e + 1, q, r, h => by
    rcases g.absent_or_node r with hr | ⟨i, n, rfl, hn⟩
    · rw [meaning_absent hr, meaning_absent hr]
    · rw [meaning_node hn] at h
      rw [meaning_node hn, meaning_node hn]
      exact answerOf_eq_of_agrees (agrees_meaning_succ e) h

variable {e e' d : Nat} {q : Question} {r : Ref} {o : Open} {i : NodeId}

/-- **A meaning stays the same at every greater height.** -/
theorem Settled.meaning_eq_of_le (h : g.Settled e q r) (he : e ≤ e') : g.meaning e' q r = g.meaning e q r := by
  induction he with
  | refl => rfl
  | step _ ih =>
    rw [← ih]
    refine agrees_meaning_succ _ q r fun f hf => ?_
    rw [hf, ih]
    exact h

/-- What is settled has one meaning at every height. -/
theorem meaning_eq_of_settled (h : g.Settled e q r) (h' : g.Settled e' q r) : g.meaning e q r = g.meaning e' q r := by
  rcases Nat.le_total e e' with he | he
  · exact (h.meaning_eq_of_le he).symm
  · exact h'.meaning_eq_of_le he

theorem Settled.mono (h : g.Settled e q r) (he : e ≤ e') : g.Settled e' q r := by
  unfold Settled
  rw [h.meaning_eq_of_le he]
  exact h

theorem settled_of_eq_ok {x : q.Answer × Bool} (h : g.meaning e q r = .ok x) : g.Settled e q r := by
  unfold Settled
  rw [h]
  exact fun hf => nomatch hf

/-- Two answers with a meaning are the same. -/
theorem eq_of_meaning_eq_ok {x x' : q.Answer × Bool} (h : g.meaning e q r = .ok x)
    (h' : g.meaning e' q r = .ok x') : x = x' := by
  have := meaning_eq_of_settled (settled_of_eq_ok h) (settled_of_eq_ok h')
  rw [h, h'] at this
  cases this
  rfl

/-- **What is told without a stop is the meaning.** -/
theorem told_eq_meaning : ∀ (d : Nat) (o : Open), (g.told d o).Agrees Failure.IsStop (g.meaning d)
  | 0, _, _, _, h => absurd rfl (h .exhausted trivial)
  | d + 1, o, q, r, h => by
    rcases g.absent_or_node r with hr | ⟨i, n, rfl, hn⟩
    · rw [told_absent hr, meaning_absent hr]
    · by_cases hi : i ∈ o q
      · exact absurd (told_open hn d hi) (h _ trivial)
      · rw [told_new hn d hi] at h
        rw [told_new hn d hi, meaning_node hn]
        exact answerOf_eq_of_agrees (told_eq_meaning d _) h

theorem meaning_of_told_eq_ok {x : q.Answer × Bool} (h : g.told d o q r = .ok x) : g.meaning d q r = .ok x := by
  rw [told_eq_meaning d o q r, h]
  rw [h]
  exact fun f _ hf => nomatch hf

/-! ### What open questions need -/

/-- The question `p` about node `j` needs the question `q` about `r`: it is settled only after
that. -/
def Needs (g : Graph) (p : Question) (j : NodeId) (q : Question) (r : Ref) : Prop :=
  ∀ e, g.Settled (e + 1) p (some j) → g.Settled e q r

theorem Needs.trans {p q' : Question} {j : NodeId} (h : g.Needs p j q (some i))
    (h' : g.Needs q i q' r) : g.Needs p j q' r := by
  intro e he
  have hq := h e he
  cases e with
  | zero => exact absurd rfl hq
  | succ e => exact (h' e hq).mono (Nat.le_succ e)

/-- A question that needs itself is never settled. -/
theorem Needs.not_settled (h : g.Needs q i q (some i)) : ∀ e, ¬ g.Settled e q (some i)
  | 0 => fun he => he rfl
  | e + 1 => fun he => h.not_settled e (h e he)

/-- Every open question needs the one that is asked. -/
def Pending (g : Graph) (o : Open) (q : Question) (r : Ref) : Prop :=
  ∀ p j, j ∈ o p → g.Needs p j q r

theorem pending_none (g : Graph) (q : Question) (r : Ref) : g.Pending Open.none q r :=
  fun _ _ hj => nomatch hj

/-- The rest `p` of the rule of node `i` for `q`, on the draft `dr`, is part of what `q` means: where
the question is settled, so is the rest. -/
def Remains {α : Type} (g : Graph) (q : Question) (i : NodeId) (p : Rule α) (dr : Draft) : Prop :=
  ∀ e, g.Settled (e + 1) q (some i) → p.eval (g.meaning e) dr ≠ .error .exhausted

theorem remains_rule {n : Node} (hn : g.node? i = some n) : g.Remains q i (n.rule g i q) {} := by
  intro e he hp
  refine he ?_
  rw [meaning_node hn, answerOf, hp]
  rfl

section

variable {α : Type} {q q' : Question} {i : NodeId} {r : Ref} {next : q'.Answer → Rule α} {dr : Draft}

/-- What the rest asks is needed. -/
theorem Remains.needs (h : g.Remains q i (.question q' r next) dr) : g.Needs q i q' r := by
  intro e he hq
  refine h e he ?_
  rw [Rule.eval, hq]
  rfl

/-- What follows a question remains once it is answered with its meaning. -/
theorem Remains.answered (h : g.Remains q i (.question q' r next) dr) {e : Nat} {x : q'.Answer × Bool}
    (hx : g.meaning e q' r = .ok x) : g.Remains q i (next x.1) (dr.answered x) := by
  intro e' he' hp
  refine h e' he' ?_
  rw [Rule.eval, meaning_eq_of_settled (h.needs e' he') (settled_of_eq_ok hx), hx]
  exact hp

/-- **Each open question needs what the rule of the asked one asks.** -/
theorem Pending.enter {o : Open} (h : g.Pending o q (some i))
    (hrest : g.Remains q i (.question q' r next) dr) : g.Pending (o.enter q i) q' r := by
  intro p j hj
  by_cases hp : p = q
  · subst hp
    rw [Open.enter_self, List.mem_append, List.mem_singleton] at hj
    rcases hj with hj | rfl
    · exact (h p j hj).trans hrest.needs
    · exact hrest.needs
  · rw [Open.enter_of_ne o hp] at hj
    exact (h p j hj).trans hrest.needs

end

/-- What a rule is told is what its questions mean, if that is so of every question it asks. -/
theorem Remains.eval_told_eq {α : Type} (hpending : g.Pending o q (some i))
    (ih : ∀ q' r, g.Pending (o.enter q i) q' r → g.Settled e q' r →
      g.told d (o.enter q i) q' r = g.meaning e q' r) (p : Rule α) (dr : Draft)
    (h : g.Remains q i p dr) (hp : p.eval (g.meaning e) dr ≠ .error .exhausted) :
    p.eval (g.told d (o.enter q i)) dr = p.eval (g.meaning e) dr := by
  induction p generalizing dr with
  | done | objection | fault => rfl
  | output t next ih | separation place next ih | subtraction next ih => exact ih _ h hp
  | reading next ih => exact ih _ _ h hp
  | question q' r next ihp =>
    have hq : g.Settled e q' r := by
      intro hq
      refine hp ?_
      rw [Rule.eval, hq]
      rfl
    rw [Rule.eval, Rule.eval, ih q' r (hpending.enter h) hq]
    cases hx : g.meaning e q' r with
    | error => rfl
    | ok x =>
      refine ihp x.1 _ (h.answered hx) fun hn => hp ?_
      rw [Rule.eval, hx]
      exact hn

/-- **A settled question is told its meaning** wherever each open question needs it. -/
theorem told_eq_of_settled : ∀ (e : Nat) {d : Nat} {o : Open} {q : Question} {r : Ref},
    g.unopened o < d → g.Pending o q r → g.Settled e q r → g.told d o q r = g.meaning e q r
  | 0, _, _, _, _, _, _, h => absurd rfl h
  | _ + 1, 0, _, _, _, hd, _, _ => absurd hd (Nat.not_lt_zero _)
  | e + 1, d + 1, o, q, r, hd, hpending, h => by
    rcases g.absent_or_node r with hr | ⟨i, n, rfl, hn⟩
    · rw [told_absent hr, meaning_absent hr]
    · have hi : i ∉ o q := fun hi => (hpending q i hi).not_settled _ h
      have hd' := unopened_enter_lt (lt_size_of_node? hn) hi
      rw [told_new hn d hi, meaning_node hn, answerOf, answerOf]
      rw [(remains_rule hn).eval_told_eq hpending (fun q' r' hp hs => told_eq_of_settled e (by omega) hp hs)]
      exact remains_rule hn e h

end Graph
end RegexBuilder
