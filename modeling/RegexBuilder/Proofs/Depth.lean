/-
# Every question ends

The bound on the depth of `Graph.asking` and `Graph.copying` is never felt. Every level opens one question about one
node, and a question that is open already ends at once, so the number of questions that are not open yet
(`Graph.unopened`) falls with every level. The recursion without a bound, `F o = g.level true F o`, descends in this
measure and has exactly one solution (`exists_unique_of_descent`).
-/

import Mathlib.Data.Finset.Prod
import Mathlib.Data.Fintype.Card
import RegexBuilder.Pattern.Ask
import RegexBuilder.Proofs.Copying

namespace RegexBuilder

open List Option

/-! ### Recursion with a bound -/

section

variable {X A : Type} {step : (X → A) → X → A} {measure : X → Nat} {bounded : Nat → X → A}

/-- Bounds above the measure all give the same, when a step looks only at what has a smaller
measure. -/
theorem bounded_eq_bounded
    (hstep : ∀ F F' x, (∀ y, measure y < measure x → F y = F' y) → step F x = step F' x)
    (hb : ∀ d, bounded (d + 1) = step (bounded d)) :
    ∀ {d d' : Nat} {x : X}, measure x < d → measure x < d' → bounded d x = bounded d' x
  | 0, _, _, h, _ | _, 0, _, _, h => absurd h (Nat.not_lt_zero _)
  | d + 1, d' + 1, x, h, h' => by
    rw [hb d, hb d']
    refine hstep _ _ x fun y hy => ?_
    exact bounded_eq_bounded hstep hb (by omega) (by omega)

/-- **A recursion that descends has one solution.** When a step looks only at what has a smaller measure, `F = step F`
determines `F`, and the recursion with a bound above the measure gives it. -/
theorem exists_unique_of_descent (hstep : ∀ F F' x, (∀ y, measure y < measure x → F y = F' y) → step F x = step F' x)
    (hb : ∀ d, bounded (d + 1) = step (bounded d)) :
    ∃ F : X → A, (∀ x, F x = step F x) ∧ (∀ F' : X → A, (∀ x, F' x = step F' x) → F' = F) ∧
      ∀ d x, measure x < d → bounded d x = F x := by
  have hF : ∀ x, bounded (measure x + 1) x = step (fun y => bounded (measure y + 1) y) x := by
    intro x
    rw [hb]
    exact hstep _ _ x fun y hy => bounded_eq_bounded hstep hb hy (Nat.lt_succ_self _)
  refine ⟨fun x => bounded (measure x + 1) x, hF, fun F' hF' => ?_, fun d x hd => ?_⟩
  · funext x
    induction hn : measure x using Nat.strong_induction_on generalizing x with
    | _ n ih =>
      subst hn
      rw [hF' x, hF x]
      exact hstep _ _ x fun y hy => ih _ hy y rfl
  · exact bounded_eq_bounded hstep hb hd (Nat.lt_succ_self _)

end

/-! ### Questions -/

instance : Fintype Question where
  elems := {.text, .core, .empty, .single}
  complete q := by cases q <;> simp

namespace Open

@[simp] theorem enter_self (o : Open) (q : Question) (i : NodeId) : o.enter q i q = o q ++ [i] := by
  simp [enter]

theorem enter_of_ne (o : Open) {p q : Question} (h : p ≠ q) (i : NodeId) : o.enter q i p = o p := by
  simp [enter, h]

theorem subset_enter (o : Open) (p q : Question) (i : NodeId) : o p ⊆ o.enter q i p := by
  by_cases h : p = q
  · subst h
    rw [enter_self]
    exact subset_append_left _ _
  · rw [enter_of_ne o h]
    exact List.Subset.refl _

end Open

namespace Graph

variable {g : Graph} {i : NodeId} {o : Open} {q : Question} {keep : Bool}

theorem lt_size_of_node? {n : Node} (h : g.node? i = some n) : i < g.size := by
  unfold node? at h
  exact (Array.getElem?_eq_some_iff.1 h).1

/-- The questions about nodes of the graph that are not open. -/
def unopenedSet (g : Graph) (o : Open) : Finset (Question × NodeId) :=
  (Finset.univ ×ˢ Finset.range g.size).filter fun x => x.2 ∉ o x.1

/-- How many questions about nodes of the graph are not open. -/
def unopened (g : Graph) (o : Open) : Nat := (g.unopenedSet o).card

/-- There are four questions about each node. -/
theorem unopened_le (g : Graph) (o : Open) : g.unopened o ≤ 4 * g.size := by
  calc g.unopened o
      ≤ (Finset.univ ×ˢ Finset.range g.size : Finset (Question × NodeId)).card := Finset.card_filter_le _ _
    _ = 4 * g.size := by
        rw [Finset.card_product, Finset.card_range]
        rfl

/-- **To open a question uses one up.** -/
theorem unopened_enter_lt (hi : i < g.size) (h : i ∉ o q) : g.unopened (o.enter q i) < g.unopened o := by
  apply Finset.card_lt_card
  refine Finset.ssubset_iff_of_subset ?_ |>.2 ⟨(q, i), ?_, ?_⟩
  · intro x hx
    obtain ⟨hmem, hx⟩ := Finset.mem_filter.1 hx
    exact Finset.mem_filter.2 ⟨hmem, fun hin => hx (o.subset_enter x.1 q i hin)⟩
  · exact Finset.mem_filter.2 ⟨Finset.mem_product.2 ⟨Finset.mem_univ _, Finset.mem_range.2 hi⟩, h⟩
  · intro hx
    refine (Finset.mem_filter.1 hx).2 ?_
    rw [Open.enter_self]
    exact mem_append_right _ (mem_singleton.2 rfl)

/-- A question that is open already does not look at the rule. -/
theorem visit_congr {rule rule' : Ask q.Answer} (h : i ∉ o q → rule = rule') :
    visit keep o q i rule = visit keep o q i rule' := by
  by_cases hi : i ∈ o q
  · funext s
    cases hk : (if keep then (s.kept q).lookup i else none) with
    | some => rw [visit_kept hk, visit_kept hk]
    | none => rw [visit_open hk hi, visit_open hk hi]
  · rw [h hi]

/-- A level of questions looks only at places with fewer unopened questions. -/
theorem level_congr (F F' : Open → Asking) (o : Open) (h : ∀ o', g.unopened o' < g.unopened o → F o' = F' o') :
    g.level keep F o = g.level keep F' o := by
  funext q r
  rcases g.absent_or_node r with hr | ⟨i, n, rfl, hn⟩
  · funext s
    rw [level_absent hr, level_absent hr]
  · rw [level_node hn, level_node hn]
    exact visit_congr fun hi => by rw [h _ (unopened_enter_lt (lt_size_of_node? hn) hi)]

end Graph

/-- A rule runs out of depth only if a question does. -/
theorem Rule.run_ne_exhausted {α : Type} {asking : Asking}
    (h : ∀ q r s, asking q r s ≠ .error .exhausted) (p : Rule α) (base : Nat) (s : Session) :
    p.run asking base s ≠ .error .exhausted := by
  induction p generalizing s with
  | done | objection | fault => simp
  | output t next ih | separation place next ih | subtraction next ih => exact ih _
  | reading next ih => exact ih _ _
  | question q r next ih =>
    intro hf
    rcases bind_eq_error.1 (run_question .. ▸ hf) with hf | ⟨x, _, hf⟩
    · exact h q r s hf
    · exact ih _ _ hf

theorem visit_ne_exhausted {keep : Bool} {o : Open} {q : Question} {i : NodeId}
    {rule : Ask q.Answer} (h : i ∉ o q → ∀ s, rule s ≠ .error .exhausted) (s : Session) :
    visit keep o q i rule s ≠ .error .exhausted := by
  cases hk : (if keep then (s.kept q).lookup i else none) with
  | some => rw [visit_kept hk]; simp
  | none =>
    by_cases hi : i ∈ o q
    · rw [visit_open hk hi]; simp
    · rw [visit_new hk hi]
      intro hf
      rcases bind_eq_error.1 hf with hf | ⟨x, _, hf⟩
      · exact h hi s hf
      · cases hf

namespace Graph

variable {g : Graph} {o : List NodeId}

/-- **No question runs out of depth** above the number of unopened questions. -/
theorem asking_ne_exhausted {keep : Bool} :
    ∀ {d : Nat} {o : Open}, g.unopened o < d → ∀ q r s, g.asking keep d o q r s ≠ .error .exhausted
  | 0, _, h, _, _, _ => absurd h (Nat.not_lt_zero _)
  | d + 1, o, h, q, r, s => by
    rcases g.absent_or_node r with hr | ⟨i, n, rfl, hn⟩
    · rw [asking, level_absent hr]; simp
    · rw [asking, level_node hn]
      refine visit_ne_exhausted (fun hi s => ?_) s
      have := unopened_enter_lt (lt_size_of_node? hn) hi
      exact Rule.run_ne_exhausted (asking_ne_exhausted (by omega)) _ _ _

/-- The bound on the depth of the questions of a graph is above the number of unopened ones. -/
theorem unopened_lt_depth (g : Graph) (o : Open) : g.unopened o < 4 * g.size + 1 :=
  Nat.lt_succ_of_le (unopened_le g o)

/-! ### Copies -/

/-- How many nodes of the graph are not being copied. -/
def uncopied (g : Graph) (o : List NodeId) : Nat :=
  ((Finset.range g.size).filter (· ∉ o)).card

theorem uncopied_le (g : Graph) (o : List NodeId) : g.uncopied o ≤ g.size := by
  calc g.uncopied o ≤ (Finset.range g.size).card := Finset.card_filter_le _ _
    _ = g.size := Finset.card_range _

theorem uncopied_append_lt {i : NodeId} (hi : i < g.size) (h : i ∉ o) : g.uncopied (o ++ [i]) < g.uncopied o := by
  apply Finset.card_lt_card
  refine Finset.ssubset_iff_of_subset ?_ |>.2 ⟨i, ?_, ?_⟩
  · intro j hj
    obtain ⟨hmem, hj⟩ := Finset.mem_filter.1 hj
    exact Finset.mem_filter.2 ⟨hmem, fun hin => hj (mem_append_left _ hin)⟩
  · exact Finset.mem_filter.2 ⟨Finset.mem_range.2 hi, h⟩
  · intro hj
    exact (Finset.mem_filter.1 hj).2 (mem_append_right _ (mem_singleton.2 rfl))

/-- A level of copies looks only at places where fewer nodes are left to be copied. -/
theorem copyLevel_congr (F F' : List NodeId → Ref → Growing Ref) (o : List NodeId)
    (h : ∀ o', g.uncopied o' < g.uncopied o → F o' = F' o') : g.copyLevel F o = g.copyLevel F' o := by
  funext r
  rcases g.absent_or_node r with hr | ⟨i, n, rfl, hn⟩
  · funext s
    rw [copyLevel_absent hr, copyLevel_absent hr]
  · by_cases hi : i ∈ o
    · funext s
      rw [copyLevel_open hn hi, copyLevel_open hn hi]
    · rw [copyLevel_new hn hi, copyLevel_new hn hi, h _ (uncopied_append_lt (lt_size_of_node? hn) hi)]

/-- Only what is absent is copied as nothing. -/
theorem ne_none_of_copyLevel_eq_ok {deeper : List NodeId → Ref → Growing Ref} {r r' : Ref} {s s' : Graph}
    (h : g.copyLevel deeper o r s = .ok (r', s')) (hr : g.deref? r ≠ none) : r' ≠ none := by
  obtain ⟨n, hn⟩ := ne_none_iff_exists'.1 hr
  obtain ⟨i, rfl, hn⟩ := bind_eq_some_iff.1 hn
  by_cases hi : i ∈ o
  · rw [copyLevel_open hn hi] at h
    cases h
  · rw [copyLevel_new hn hi] at h
    obtain ⟨n', s₁, -, h⟩ := run_bind_eq_ok.1 h
    cases h
    exact some_ne_none _

/-- **No copy runs out of depth** above the number of nodes that are not being copied. -/
theorem copying_ne_exhausted : ∀ {d : Nat} {o : List NodeId}, g.uncopied o < d →
    ∀ r, Ensures (fun _ => True) (g.copying d o r) (fun r' _ => True ∧ (g.deref? r ≠ none → r' ≠ none)) (· ≠ .exhausted)
  | 0, _, h, _ => absurd h (Nat.not_lt_zero _)
  | d + 1, o, h, r => by
    refine fun s _ => ⟨fun r' s' hr' => ⟨trivial, ne_none_of_copyLevel_eq_ok hr'⟩, fun f hf => ?_⟩
    rw [copying] at hf
    rcases g.absent_or_node r with hr | ⟨i, n, rfl, hn⟩
    · rw [copyLevel_absent hr] at hf
      cases hf
    · by_cases hi : i ∈ o
      · rw [copyLevel_open hn hi] at hf
        cases hf
        exact Failure.noConfusion
      · rw [copyLevel_new hn hi] at hf
        have := uncopied_append_lt (lt_size_of_node? hn) hi
        have hcopy : Ensures (fun _ => True) (n.copy (copyEndpoint g) (g.copying d (o ++ [i]))) (fun _ _ => True)
            (· ≠ .exhausted) :=
          Node.copy_ensures (fun _ _ _ => trivial) (fun r _ => copying_ne_exhausted (by omega) r)
            fun _ => ⟨Failure.noConfusion, Failure.noConfusion⟩
        exact ((hcopy.bind fun _ => Growing.add_ensures fun _ _ => trivial) s trivial).2 f hf

/-! ### The whole traversal -/

end Graph

/-- The outcome is an answer, an objection of a node, a recursion or a fault. -/
def Finishes {α : Type} (a : Except Failure α) : Prop :=
  (∃ x, a = .ok x) ∨ (∃ i why, a = .error (.invalid i why)) ∨
    (∃ q path, a = .error (.recursion q path)) ∨ ∃ f, a = .error (.broken f)

theorem finishes_of_ne_exhausted {α : Type} {a : Except Failure α} (h : a ≠ .error .exhausted) : Finishes a := by
  match a, h with
  | .ok x, _ => exact .inl ⟨x, rfl⟩
  | .error (.invalid i why), _ => exact .inr (.inl ⟨i, why, rfl⟩)
  | .error (.recursion q path), _ => exact .inr (.inr (.inl ⟨q, path, rfl⟩))
  | .error (.broken f), _ => exact .inr (.inr (.inr ⟨f, rfl⟩))
  | .error .exhausted, h => exact absurd rfl h

theorem Ask.answer_ne_exhausted {α : Type} {a : Ask α} (h : a {} ≠ .error .exhausted) :
    a.answer ≠ .error .exhausted := by
  intro hf
  rcases bind_eq_error.1 (show (a {} >>= fun x => .ok x.1) = _ from hf) with hf | ⟨x, -, hf⟩
  · exact h hf
  · cases hf

theorem Ask.rendering_ne_exhausted {a : Ask Text} (h : a {} ≠ .error .exhausted) : a.rendering ≠ .error .exhausted := by
  intro hf
  rcases bind_eq_error.1 hf with hf | ⟨x, -, hf⟩
  · exact h hf
  · cases hf

/-- **Every question about every graph ends.** The recursion of the four questions, without any bound
on its depth, has one solution, and the questions of the graph are that solution; so it is with the
recursion of copies. Whatever node one starts from, each of the five ends with an answer, an error or
a fault. -/
theorem Graph.traversal_wellFounded (g : Graph) :
    (∃ F : Open → Asking, (∀ o, F o = g.level true F o) ∧
      (∀ F' : Open → Asking, (∀ o, F' o = g.level true F' o) → F' = F) ∧
      g.questions true = F Open.none) ∧
    (∃ C : List NodeId → Ref → Growing Ref, (∀ o, C o = g.copyLevel C o) ∧
      (∀ C' : List NodeId → Ref → Growing Ref, (∀ o, C' o = g.copyLevel C' o) → C' = C) ∧
      ∀ r, g.copy r = (C [] r).run g) ∧
    ∀ r, Finishes (g.render r) ∧ Finishes (g.core r) ∧ Finishes (g.isEmpty r) ∧
      Finishes (g.isSingle r) ∧ Finishes (g.copy r) := by
  have hask : ∀ q r, g.questions true q r {} ≠ .error .exhausted := fun q r =>
    asking_ne_exhausted (g.unopened_lt_depth _) q r {}
  have hcopy : g.uncopied [] < g.size + 1 := Nat.lt_succ_of_le (g.uncopied_le [])
  refine ⟨?_, ?_, fun r => ⟨?_, ?_, ?_, ?_, ?_⟩⟩
  · obtain ⟨F, hF, hunique, hbounded⟩ :=
      exists_unique_of_descent (level_congr (g := g)) (fun d => (rfl : g.asking true (d + 1) = _))
    exact ⟨F, hF, hunique, hbounded _ _ (g.unopened_lt_depth _)⟩
  · obtain ⟨C, hC, hunique, hbounded⟩ :=
      exists_unique_of_descent (copyLevel_congr (g := g)) (fun d => (rfl : g.copying (d + 1) = _))
    refine ⟨C, hC, hunique, fun r => ?_⟩
    rw [copy, hbounded _ _ hcopy]
  · exact finishes_of_ne_exhausted (Ask.rendering_ne_exhausted (hask .text r))
  · exact finishes_of_ne_exhausted (Ask.answer_ne_exhausted (hask .core r))
  · exact finishes_of_ne_exhausted (Ask.answer_ne_exhausted (hask .empty r))
  · exact finishes_of_ne_exhausted (Ask.answer_ne_exhausted (hask .single r))
  · refine finishes_of_ne_exhausted fun hf => ?_
    exact (copying_ne_exhausted hcopy r g trivial).2 _ hf rfl

end RegexBuilder
