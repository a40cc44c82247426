/-
# Lists

General facts about lists: lists whose elements belong together one by one (`List.Forall₂`), and lists that are
counted and cut.
-/

import Mathlib.Data.List.Forall2
import Mathlib.Tactic.Common

namespace RegexBuilder

open List

variable {α β γ : Type} {R : α → β → Prop} {l : List α} {l' : List β}

/-! ### Lists side by side -/

theorem exists_mem_of_forall₂ (h : Forall₂ R l l') {x : α} (hx : x ∈ l) : ∃ y ∈ l', R x y := by
  induction h with
  | nil => cases hx
  | cons hxy _ ih =>
    rcases mem_cons.1 hx with rfl | hx
    · exact ⟨_, mem_cons_self, hxy⟩
    · obtain ⟨y, hy, hxy⟩ := ih hx
      exact ⟨y, mem_cons_of_mem _ hy, hxy⟩

theorem exists_forall₂ : ∀ {l : List α}, (∀ a ∈ l, ∃ b, R a b) → ∃ bs, Forall₂ R l bs
  | [], _ => ⟨[], .nil⟩
  | a :: l, h => by
    obtain ⟨b, hb⟩ := h a mem_cons_self
    obtain ⟨bs, hbs⟩ := exists_forall₂ fun c hc => h c (mem_cons_of_mem a hc)
    exact ⟨b :: bs, .cons hb hbs⟩

/-- Two lists that belong to a third one belong together. -/
theorem forall₂_join {A : γ → α → Prop} {B : γ → β → Prop} (hR : ∀ c a b, A c a → B c b → R a b) {cs : List γ}
    (hA : Forall₂ A cs l) (hB : Forall₂ B cs l') : Forall₂ R l l' := by
  induction hA generalizing l' with
  | nil =>
    cases hB
    exact .nil
  | cons hca _ ih =>
    cases hB with
    | cons hcb hB => exact .cons (hR _ _ _ hca hcb) (ih hB)

/-- The elements of the first list that have a property, and what belongs to them. -/
theorem forall₂_filter (h : Forall₂ R l l') (p : α → Bool) :
    ∃ k, Forall₂ R (l.filter p) k ∧ (l.filter p).zip k = (l.zip l').filter (p ·.1) := by
  induction h with
  | nil => exact ⟨[], .nil, rfl⟩
  | @cons a b l l' hab _ ih =>
    obtain ⟨k, hk, hzip⟩ := ih
    cases ha : p a with
    | true => exact ⟨b :: k, by simp [ha, hab, hk], by simp [ha, hzip]⟩
    | false => exact ⟨k, by simp [ha, hk], by simp [ha, hzip]⟩

/-- What belongs to a part of a list is a part of the other list. -/
theorem exists_isInfix_of_forall₂ {part : List β} (h : Forall₂ R l l') (hpart : part <:+: l') :
    ∃ before mid after, l = before ++ mid ++ after ∧ Forall₂ R mid part := by
  obtain ⟨pre, post, rfl⟩ := hpart
  have hfront := forall₂_take_append l (pre ++ part) post h
  have hmid := forall₂_drop_append _ pre part hfront
  refine ⟨(l.take (pre ++ part).length).take pre.length, _, l.drop (pre ++ part).length, ?_, hmid⟩
  rw [take_append_drop, take_append_drop]

theorem mapM_eq_some {f : α → Option β} : l.mapM f = some l' ↔ Forall₂ (fun x y => f x = some y) l l' := by
  induction l generalizing l' with
  | nil => simp [eq_comm]
  | cons x l ih =>
    simp only [mapM_cons, Option.bind_eq_bind, Option.bind_eq_some_iff, Option.pure_def, Option.some.injEq, ih]
    constructor
    · rintro ⟨y, hy, ys, hys, rfl⟩
      exact .cons hy hys
    · intro h
      obtain ⟨y, ys, hy, hys, rfl⟩ := forall₂_cons_left_iff.1 h
      exact ⟨y, hy, ys, hys, rfl⟩

/-! ### Counting and cutting -/

/-- More elements have `q` than `p`, which implies it, exactly if one has `q` and not `p`. -/
theorem countP_lt_countP_iff {p q : α → Bool} (h : ∀ x ∈ l, p x = true → q x = true) :
    l.countP p < l.countP q ↔ ∃ x ∈ l, q x = true ∧ p x = false := by
  induction l with
  | nil => simp
  | cons x l ih =>
    have hle := countP_mono_left fun y hy => h y (mem_cons_of_mem _ hy)
    have hx := h x mem_cons_self
    rw [countP_cons, countP_cons]
    simp only [mem_cons, exists_eq_or_imp]
    rw [← ih fun y hy => h y (mem_cons_of_mem _ hy)]
    cases hp : p x <;> cases hq : q x
    · simp
    · exact iff_of_true (by simp only [Bool.false_eq_true, if_false, if_true]; omega) (.inl ⟨rfl, rfl⟩)
    · exact absurd (hq.symm.trans (hx hp)) Bool.false_ne_true
    · simp

/-- Of two elements of a list in order, one comes before the other, or they are one. -/
theorem eq_or_of_pairwise {S : α → α → Prop} (h : l.Pairwise S) {x y : α} (hx : x ∈ l) (hy : y ∈ l) :
    x = y ∨ S x y ∨ S y x := by
  obtain ⟨i, hi, rfl⟩ := getElem_of_mem hx
  obtain ⟨j, hj, rfl⟩ := getElem_of_mem hy
  have hS := pairwise_iff_getElem.1 h
  rcases Nat.lt_trichotomy i j with hij | rfl | hij
  · exact .inr (.inl (hS i j hi hj hij))
  · exact .inl rfl
  · exact .inr (.inr (hS j i hj hi hij))

/-- Behind its longest beginning with a property, a list is what is left without that beginning. -/
theorem drop_length_takeWhile (p : α → Bool) (l : List α) : l.drop (l.takeWhile p).length = l.dropWhile p := by
  have h : (l.takeWhile p ++ l.dropWhile p).drop (l.takeWhile p).length = l.dropWhile p := drop_left
  rwa [takeWhile_append_dropWhile] at h

end RegexBuilder
