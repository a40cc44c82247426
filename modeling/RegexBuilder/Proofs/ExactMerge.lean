/-
# Merging ranges is exact

The merged ranges are the ranges, as few as possible (`Graph.mergeRanges_exact`), if none is inverted and the numbers
of the endpoints differ by less than `2 ^ 31`, as those of characters do: differences of 32 bits are then what they
seem.

The blocks of the sweep (`Range.AreBlocks`) say this in terms of endpoints. A range that starts in a block also ends
in it, because everything up to its end is covered and the number behind the block is not (`AreBlocks.last_le`).
-/

import Mathlib.Data.Fintype.Card
import RegexBuilder.Pattern.Edit
import RegexBuilder.Proofs.Lists
import RegexBuilder.Proofs.Sweep

namespace RegexBuilder

open List
namespace Range

variable {α β : Type} {value : α → Int32} {ranges out : List (Range α)}

/-! ### What an exact merge is -/

/-- The number lies in the range between endpoints with the numbers `value`. -/
def Covers (value : α → Int32) (r : Range α) (n : Int32) : Prop := value r.first ≤ n ∧ n ≤ value r.last

/-- The range with the index `k` lies in `r`. -/
def Absorbs (value : α → Int32) (ranges : List (Range α)) (r : Range α) (k : Nat) : Prop :=
  ∃ s, ranges[k]? = some s ∧ value r.first ≤ value s.first ∧ value s.last ≤ value r.last

/-- The indices of the ranges that begin at `n`. -/
def startsAt (value : α → Int32) (ranges : List (Range α)) (n : Int32) : Set Nat :=
  {k | ∃ s : Range α, ranges[k]? = some s ∧ value s.first = n}

/-- The indices of the ranges that end at `n`. -/
def endsAt (value : α → Int32) (ranges : List (Range α)) (n : Int32) : Set Nat :=
  {k | ∃ s : Range α, ranges[k]? = some s ∧ value s.last = n}

/-- The endpoints of the ranges. -/
def endpoints (ranges : List (Range α)) : List α := ranges.flatMap fun r => [r.first, r.last]

/-- The ranges `out` are what the ranges come to when they are fused where they overlap or touch. -/
structure IsExactMerge (value : α → Int32) (ranges out : List (Range α)) : Prop where
  /-- The same numbers are covered. -/
  covers_iff : ∀ n, (∃ r ∈ out, r.Covers value n) ↔ ∃ r ∈ ranges, r.Covers value n
  ordered : ∀ r ∈ out, value r.first ≤ value r.last
  /-- A number that is not covered lies between any two. -/
  apart : out.Pairwise fun r r' => ∃ n, (∀ s ∈ ranges, ¬ s.Covers value n) ∧
    (value r.last < n ∧ n < value r'.first ∨ value r'.last < n ∧ n < value r.first)
  /-- No shorter list covers the same numbers. -/
  shortest : ∀ other : List (Range Int32),
    (∀ n, (∃ r ∈ other, r.Covers id n) ↔ ∃ r ∈ ranges, r.Covers value n) → out.length ≤ other.length
  /-- They stand in the order of the first ranges that they absorbed. -/
  order : out.Pairwise fun r r' => ∃ i j, IsLeast {k | r.Absorbs value ranges k} i ∧
    IsLeast {k | r'.Absorbs value ranges k} j ∧ i < j
  /-- Each begins with the endpoint of the first range that begins at its number. -/
  first : ∀ r ∈ out, ∃ (i : Nat) (s : Range α), IsLeast (startsAt value ranges (value r.first)) i ∧
    ranges[i]? = some s ∧ s.first = r.first
  /-- Each ends with the endpoint of the last range that ends at its number. -/
  last : ∀ r ∈ out, ∃ (i : Nat) (s : Range α), IsGreatest (endsAt value ranges (value r.last)) i ∧
    ranges[i]? = some s ∧ s.last = r.last

/-! ### Ranges and their endpoints -/

/-- Each range has an endpoint that starts it and one that closes it. -/
theorem countP_marks (p : Bool → Int → Bool) (i : Nat) : ((marks value i ranges).countP fun m => p m.closes m.number) =
      (ranges.countP fun r => p false (value r.first).toInt) + ranges.countP fun r => p true (value r.last).toInt := by
  induction ranges generalizing i with
  | nil => rfl
  | cons r rest ih =>
    have hrest := ih (i + 1)
    simp only [marks, countP_cons, Mark.number] at hrest ⊢
    omega

theorem passed_marks (c : Bool) (i : Nat) (n : Int) : passed c (marks value i ranges) n =
    ranges.countP fun r => decide ((value (if c then r.last else r.first)).toInt ≤ n) := by
  have hcount : (marks value i ranges).countP _ = _ := countP_marks (fun c' k => c' == c && decide (k ≤ n)) i
  cases c <;> simpa [passed] using hcount

theorem value_of_mem_marks {m : Mark α} {i : Nat} (hm : m ∈ marks value i ranges) : value m.point = m.value := by
  obtain ⟨j, r, hr, rfl | rfl⟩ := mem_marks.1 hm <;> rfl

theorem forall_mem_endpoints {P : α → Prop} :
    (∀ a ∈ endpoints ranges, P a) ↔ ∀ r ∈ ranges, P r.first ∧ P r.last := by
  rw [endpoints, forall_mem_flatMap]
  simp

section

variable (hordered : ∀ r ∈ ranges, value r.first ≤ value r.last)

include hordered

/-- A number is covered exactly if more ranges have started than ended before it. -/
theorem exists_covers_iff (n : Int32) : (∃ r ∈ ranges, r.Covers value n) ↔
    passed true (marks value 0 ranges) (n.toInt - 1) < passed false (marks value 0 ranges) n.toInt := by
  rw [passed_marks, passed_marks, countP_lt_countP_iff]
  · refine exists_congr fun r => and_congr_right fun _ => ?_
    simp only [Covers, Int32.le_iff_toInt_le, decide_eq_true_eq, decide_eq_false_iff_not, if_true, Bool.false_eq_true,
      if_false]
    omega
  · intro r hr
    have := Int32.le_iff_toInt_le.1 (hordered r hr)
    simp only [decide_eq_true_eq, if_true, Bool.false_eq_true, if_false]
    omega

/-- **The sweep is ready for the endpoints of the ranges.** -/
theorem ready_marks (hnear : ∀ a ∈ endpoints ranges, ∀ b ∈ endpoints ranges,
      (value a).toInt - (value b).toInt < 2 ^ 31) : Ready (-2 ^ 31) 0 ((marks value 0 ranges).mergeSort Mark.le) := by
  have hperm := mergeSort_perm (marks value 0 ranges) Mark.le
  have hendpoint : ∀ m ∈ (marks value 0 ranges).mergeSort Mark.le,
      m.point ∈ endpoints ranges ∧ m.number = (value m.point).toInt := by
    intro m hm
    have hmem := hperm.mem_iff.1 hm
    refine ⟨?_, by rw [value_of_mem_marks hmem]; rfl⟩
    obtain ⟨j, r, hr, rfl | rfl⟩ := mem_marks.1 hmem
    all_goals exact mem_flatMap.2 ⟨r, mem_of_getElem? hr, by simp⟩
  refine ⟨Int.le_refl _, Mark.pairwise_before value ranges, fun m _ => m.value.le_toInt, fun n _ => ?_, ?_,
    fun m hm m' hm' => ?_⟩
  · have hle : passed true (marks value 0 ranges) n ≤ passed false (marks value 0 ranges) n := by
      rw [passed_marks, passed_marks]
      refine countP_mono_left fun r hr => ?_
      have := Int32.le_iff_toInt_le.1 (hordered r hr)
      simp only [decide_eq_true_eq, if_true, Bool.false_eq_true, if_false]
      omega
    rw [passed, passed, hperm.countP_eq, hperm.countP_eq]
    unfold passed at hle
    omega
  · rw [hperm.countP_eq, hperm.countP_eq, countP_marks fun c _ => c == false, countP_marks fun c _ => c == true]
    simp
  · rw [(hendpoint m hm).2, (hendpoint m' hm').2]
    exact hnear _ (hendpoint m' hm').1 _ (hendpoint m hm).1

end

/-! ### Blocks of endpoints and the ranges in them -/

namespace AreBlocks

variable {ms : List (Mark α)} {bs : List (Block α)}

theorem of_perm {ms' : List (Mark α)} (h : AreBlocks ms bs) (hperm : ms.Perm ms') : AreBlocks ms' bs := by
  refine ⟨fun b hb => ?_, h.apart, fun n => ?_⟩
  · have hin := h.isIn b hb
    obtain ⟨m, hm, hsource⟩ := hin.exists_source
    exact ⟨hperm.mem_iff.1 hin.opening_mem, hperm.mem_iff.1 hin.closing_mem, hin.opens, hin.closes, hin.le,
      fun m hm => hin.lowest m (hperm.mem_iff.2 hm), fun m hm => hin.highest m (hperm.mem_iff.2 hm),
      ⟨m, hperm.mem_iff.1 hm, hsource⟩, fun m hm => hin.source_le m (hperm.mem_iff.2 hm)⟩
  · rw [h.holds_iff, passed, passed, hperm.countP_eq, hperm.countP_eq]
    rfl

/-- No block holds the number behind a block. -/
theorem not_holds_succ (h : AreBlocks ms bs) {b : Block α} (hb : b ∈ bs) :
    ¬ ∃ b' ∈ bs, b'.Holds (b.closing.number + 1) := by
  rintro ⟨b', hb', hlo, hhi⟩
  have hle := (h.isIn b hb).le
  rcases eq_or_of_pairwise h.apart hb hb' with rfl | hp | hp
  · omega
  · exact absurd hlo (Int.not_le.2 hp)
  · unfold Block.Precedes at hp
    omega

end AreBlocks

/-- The fused range without its index. -/
def Block.range (b : Block α) : Range α := ⟨b.opening.point, b.closing.point⟩

/-- One of two blocks precedes the other. -/
def Block.Apart (b b' : Block α) : Prop := b.Precedes b' ∨ b'.Precedes b

section

variable {b b' : Block α} (hin : b.IsIn (marks value 0 ranges))

include hin

/-- The start at which a block begins is that of a range. -/
theorem Block.IsIn.exists_opening : ∃ s, ranges[b.opening.source]? = some s ∧ s.first = b.range.first := by
  obtain ⟨j, r, hr, h | h⟩ := mem_marks.1 hin.opening_mem
  · rw [Block.range, h, Nat.zero_add]
    exact ⟨r, hr, rfl⟩
  · cases h ▸ hin.opens

/-- The end at which a block ends is that of a range. -/
theorem Block.IsIn.exists_closing : ∃ s, ranges[b.closing.source]? = some s ∧ s.last = b.range.last := by
  obtain ⟨j, r, hr, h | h⟩ := mem_marks.1 hin.closing_mem
  · cases h ▸ hin.closes
  · rw [Block.range, h, Nat.zero_add]
    exact ⟨r, hr, rfl⟩

theorem Block.IsIn.value_first : value b.range.first = b.opening.value := value_of_mem_marks hin.opening_mem

theorem Block.IsIn.value_last : value b.range.last = b.closing.value := value_of_mem_marks hin.closing_mem

theorem Block.IsIn.covers_iff {n : Int32} : b.range.Covers value n ↔ b.Holds n.toInt := by
  rw [Covers, hin.value_first, hin.value_last, Int32.le_iff_toInt_le, Int32.le_iff_toInt_le]
  rfl

/-- Blocks with a number between them have different indices. -/
theorem Block.IsIn.source_ne (hin' : b'.IsIn (marks value 0 ranges)) (h : b.Apart b') : b.source ≠ b'.source := by
  intro heq
  obtain ⟨m, hm, hopens, hholds, hsource⟩ := hin.exists_source
  obtain ⟨m', hm', hopens', hholds', hsource'⟩ := hin'.exists_source
  obtain ⟨j, r, hr, rfl | rfl⟩ := mem_marks.1 hm
  · obtain ⟨j', r', hr', rfl | rfl⟩ := mem_marks.1 hm'
    · -- there is only one start with this index
      obtain rfl : j = j' := by simpa using hsource.trans (heq.trans hsource'.symm)
      cases hr.symm.trans hr'
      unfold Block.Apart Block.Precedes at h
      unfold Block.Holds at hholds hholds'
      omega
    · cases hopens'
  · cases hopens

end

section

variable {bs : List (Block α)} {b : Block α} (h : AreBlocks (marks value 0 ranges) bs)
  (hordered : ∀ r ∈ ranges, value r.first ≤ value r.last)

include h hordered

namespace AreBlocks

theorem covers_iff (n : Int32) : (∃ b ∈ bs, b.range.Covers value n) ↔ ∃ r ∈ ranges, r.Covers value n := by
  rw [exists_covers_iff hordered, ← h.holds_iff]
  exact exists_congr fun b => and_congr_right fun hb => (h.isIn b hb).covers_iff

/-- The number behind a block is not covered. -/
theorem not_covers_succ (hb : b ∈ bs) {n : Int32} (hn : n.toInt = b.closing.number + 1) :
    ∀ r ∈ ranges, ¬ r.Covers value n := by
  intro r hr hcovers
  obtain ⟨b', hb', hb'n⟩ := (h.covers_iff hordered n).2 ⟨r, hr, hcovers⟩
  exact h.not_holds_succ hb ⟨b', hb', hn ▸ (h.isIn b' hb').covers_iff.1 hb'n⟩

/-- **A range that starts in a block ends in it.** -/
theorem last_le (hb : b ∈ bs) {s : Range α} (hs : s ∈ ranges) (hfirst : value s.first ≤ value b.range.last) :
    value s.last ≤ value b.range.last := by
  rw [(h.isIn b hb).value_last] at hfirst ⊢
  by_contra hnot
  rw [Int32.le_iff_toInt_le] at hfirst hnot
  have hlt := (value s.last).toInt_lt
  have hlow := b.closing.value.le_toInt
  have hnext : (Int32.ofInt (b.closing.value.toInt + 1)).toInt = b.closing.value.toInt + 1 :=
    Int32.toInt_ofInt_of_le (by omega) (by omega)
  refine h.not_covers_succ hordered hb hnext s hs ⟨?_, ?_⟩ <;> rw [Int32.le_iff_toInt_le] <;> omega

/-- The index of a block is the first one of the ranges that it absorbs. -/
theorem isLeast_absorbs (hb : b ∈ bs) : IsLeast {k | b.range.Absorbs value ranges k} b.source := by
  have hin := h.isIn b hb
  constructor
  · obtain ⟨m, hm, hopens, hholds, hsource⟩ := hin.exists_source
    obtain ⟨j, r, hr, rfl | rfl⟩ := mem_marks.1 hm
    · obtain ⟨hfirst, hlast⟩ := hin.covers_iff.2 hholds
      rw [← hsource, Nat.zero_add]
      exact ⟨r, hr, hfirst, h.last_le hordered hb (mem_of_getElem? hr) hlast⟩
    · cases hopens
  · rintro k ⟨s, hs, hfirst, hlast⟩
    have hcovers : b.range.Covers value (value s.first) :=
      ⟨hfirst, Int32.le_trans (hordered s (mem_of_getElem? hs)) hlast⟩
    have := hin.source_le _ (mem_marks.2 ⟨k, s, hs, .inl rfl⟩) rfl (hin.covers_iff.1 hcovers)
    rwa [Nat.zero_add] at this

/-- Between two blocks lies a number that is not covered. -/
theorem exists_between (hb : b ∈ bs) {b' : Block α} (hb' : b' ∈ bs) (hprecedes : b.Precedes b') :
    ∃ n, (∀ s ∈ ranges, ¬ s.Covers value n) ∧ value b.range.last < n ∧ n < value b'.range.first := by
  unfold Block.Precedes Mark.number at hprecedes
  have hlow := b.closing.value.le_toInt
  have hlt := b'.opening.value.toInt_lt
  have hn : (Int32.ofInt (b.closing.value.toInt + 1)).toInt = b.closing.value.toInt + 1 :=
    Int32.toInt_ofInt_of_le (by omega) (by omega)
  refine ⟨_, h.not_covers_succ hordered hb hn, ?_, ?_⟩
  · rw [(h.isIn b hb).value_last, Int32.lt_iff_toInt_lt, hn]
    omega
  · rw [(h.isIn b' hb').value_first, Int32.lt_iff_toInt_lt, hn]
    omega

end AreBlocks

end

/-- A block begins with the endpoint of the first range that begins there. -/
theorem Block.IsIn.isLeast_startsAt {b : Block α} (hin : b.IsIn (marks value 0 ranges)) :
    IsLeast (startsAt value ranges (value b.range.first)) b.opening.source := by
  obtain ⟨s, hs, hfirst⟩ := hin.exists_opening
  refine ⟨⟨s, hs, by rw [hfirst]⟩, ?_⟩
  rintro k ⟨s', hs', hvalue⟩
  have hnumber : (value s'.first).toInt = b.opening.value.toInt := by rw [hvalue, hin.value_first]
  have := hin.lowest _ (mem_marks.2 ⟨k, s', hs', .inl rfl⟩) rfl hnumber
  rwa [Nat.zero_add] at this

/-- A block ends with the endpoint of the last range that ends there. -/
theorem Block.IsIn.isGreatest_endsAt {b : Block α} (hin : b.IsIn (marks value 0 ranges)) :
    IsGreatest (endsAt value ranges (value b.range.last)) b.closing.source := by
  obtain ⟨s, hs, hlast⟩ := hin.exists_closing
  refine ⟨⟨s, hs, by rw [hlast]⟩, ?_⟩
  rintro k ⟨s', hs', hvalue⟩
  have hnumber : (value s'.last).toInt = b.closing.value.toInt := by rw [hvalue, hin.value_last]
  have := hin.highest _ (mem_marks.2 ⟨k, s', hs', .inr rfl⟩) rfl hnumber
  rwa [Nat.zero_add] at this

/-! ### The merged ranges -/

/-- **Ranges with gaps between them are as few as possible:** no range of another list reaches over a gap. -/
theorem length_le_of_gaps {other : List (Range Int32)} (hordered : ∀ r ∈ out, value r.first ≤ value r.last)
    (hgaps : out.Pairwise fun r r' => ∃ n, (∀ s ∈ other, ¬ s.Covers id n) ∧
      (value r.last < n ∧ n < value r'.first ∨ value r'.last < n ∧ n < value r.first))
    (hcovers : ∀ r ∈ out, ∃ s ∈ other, s.Covers id (value r.first)) : out.length ≤ other.length := by
  have hindex : ∀ i : Fin out.length, ∃ j : Fin other.length, (other.get j).Covers id (value (out.get i).first) := by
    intro i
    obtain ⟨s, hs, hcovers⟩ := hcovers _ (out.get_mem i)
    obtain ⟨j, hj, rfl⟩ := getElem_of_mem hs
    exact ⟨⟨j, hj⟩, hcovers⟩
  choose f hf using hindex
  have hne : ∀ i j, i < j → f i ≠ f j := by
    intro i j hij heq
    obtain ⟨n, hn, hbetween⟩ := pairwise_iff_get.1 hgaps i j hij
    have hi := hordered _ (out.get_mem i)
    have hj := hordered _ (out.get_mem j)
    have hfi := hf i
    have hfj := hf j
    rw [← heq] at hfj
    refine hn _ (other.get_mem (f i)) ?_
    simp only [Covers, id, Int32.le_iff_toInt_le, Int32.lt_iff_toInt_lt] at *
    omega
  have hinjective : Function.Injective f := by
    intro i j heq
    rcases lt_trichotomy i j with hij | hij | hij
    · exact absurd heq (hne i j hij)
    · exact hij
    · exact absurd heq.symm (hne j i hij)
  simpa using Fintype.card_le_of_injective f hinjective

section

variable (hordered : ∀ r ∈ ranges, value r.first ≤ value r.last)
  (hnear : ∀ a ∈ endpoints ranges, ∀ b ∈ endpoints ranges, (value a).toInt - (value b).toInt < 2 ^ 31)

include hordered

/-- Blocks in the order of their indices are an exact merge. -/
theorem AreBlocks.isExactMerge {bs : List (Block α)} (h : AreBlocks (marks value 0 ranges) bs) :
    IsExactMerge value ranges ((bs.mergeSort fun b b' => decide (b.source ≤ b'.source)).map Block.range) := by
  have hperm := mergeSort_perm bs fun b b' => decide (b.source ≤ b'.source)
  have hsorted : (bs.mergeSort fun b b' => decide (b.source ≤ b'.source)).Pairwise fun b b' =>
      decide (b.source ≤ b'.source) = true :=
    pairwise_mergeSort (fun _ _ _ => by simpa using Nat.le_trans) (fun _ _ => by simpa using Nat.le_total _ _) bs
  generalize (bs.mergeSort fun b b' => decide (b.source ≤ b'.source)) = sorted at hperm hsorted
  have hmem : ∀ b ∈ sorted, b ∈ bs := fun b hb => hperm.mem_iff.1 hb
  have hapart : sorted.Pairwise Block.Apart := (hperm.pairwise_iff Or.symm).2 (h.apart.imp .inl)
  have hcovers : ∀ n, (∃ r ∈ sorted.map Block.range, r.Covers value n) ↔ ∃ r ∈ ranges, r.Covers value n := by
    intro n
    rw [← h.covers_iff hordered]
    simp only [mem_map, exists_exists_and_eq_and, hperm.mem_iff]
  have hle : ∀ r ∈ sorted.map Block.range, value r.first ≤ value r.last := by
    rw [forall_mem_map]
    intro b hb
    have hin := h.isIn b (hmem b hb)
    rw [hin.value_first, hin.value_last, Int32.le_iff_toInt_le]
    exact hin.le
  have hgaps : (sorted.map Block.range).Pairwise fun r r' => ∃ n, (∀ s ∈ ranges, ¬ s.Covers value n) ∧
      (value r.last < n ∧ n < value r'.first ∨ value r'.last < n ∧ n < value r.first) := by
    rw [pairwise_map]
    refine hapart.imp_of_mem fun {b b'} hb hb' hbb' => ?_
    rcases hbb' with hp | hp
    · exact (h.exists_between hordered (hmem b hb) (hmem b' hb') hp).imp fun n hn => ⟨hn.1, .inl hn.2⟩
    · exact (h.exists_between hordered (hmem b' hb') (hmem b hb) hp).imp fun n hn => ⟨hn.1, .inr hn.2⟩
  refine ⟨hcovers, hle, hgaps, fun other hother => ?_, ?_, ?_, ?_⟩
  · refine length_le_of_gaps hle (hgaps.imp ?_) fun r hr => ?_
    · rintro r r' ⟨n, hn, hbetween⟩
      refine ⟨n, fun s hs hcov => ?_, hbetween⟩
      obtain ⟨t, ht, htn⟩ := (hother n).1 ⟨s, hs, hcov⟩
      exact hn t ht htn
    · exact (hother _).2 ((hcovers _).1 ⟨r, hr, Int32.le_refl _, hle r hr⟩)
  · rw [pairwise_map]
    refine (hsorted.and hapart).imp_of_mem fun {b b'} hb hb' hbb' => ?_
    have hne := (h.isIn b (hmem b hb)).source_ne (h.isIn b' (hmem b' hb')) hbb'.2
    exact ⟨_, _, h.isLeast_absorbs hordered (hmem b hb), h.isLeast_absorbs hordered (hmem b' hb'),
      Nat.lt_of_le_of_ne (of_decide_eq_true hbb'.1) hne⟩
  · rw [forall_mem_map]
    intro b hb
    have hin := h.isIn b (hmem b hb)
    obtain ⟨s, hs, hfirst⟩ := hin.exists_opening
    exact ⟨_, s, hin.isLeast_startsAt, hs, hfirst⟩
  · rw [forall_mem_map]
    intro b hb
    have hin := h.isIn b (hmem b hb)
    obtain ⟨s, hs, hlast⟩ := hin.exists_closing
    exact ⟨_, s, hin.isGreatest_endsAt, hs, hlast⟩

include hnear

/-- **Merging ranges is exact.** -/
theorem exists_isExactMerge : ∃ out : List (Range α),
    (merge value ranges).map (fun f => (f.first, f.last)) = out.map (fun r => (some r.first, r.last)) ∧
      IsExactMerge value ranges out := by
  obtain ⟨bs, hsweep, hbs⟩ := (ready_marks hordered hnear).exists_blocks 0
  have hbs := hbs.of_perm (mergeSort_perm (marks value 0 ranges) Mark.le)
  refine ⟨_, ?_, hbs.isExactMerge hordered⟩
  rw [merge, hsweep, ← map_mergeSort (r := fun b b' => decide (b.source ≤ b'.source)) fun _ _ _ _ => rfl,
    map_map, map_map]
  rfl

end

/-! ### Ranges of nodes -/

/-- The range between the images of the endpoints. -/
def map (f : α → β) (r : Range α) : Range β := ⟨f r.first, f r.last⟩

section

variable (f : α → β) (value : β → Int32) (ranges : List (Range α))

theorem exists_covers_map (n : Int32) : (∃ r ∈ ranges.map (map f), r.Covers value n) ↔
    ∃ r ∈ ranges, r.Covers (value ∘ f) n := by
  simp only [mem_map, exists_exists_and_eq_and]
  rfl

theorem absorbs_map (r : Range α) (k : Nat) :
    (r.map f).Absorbs value (ranges.map (map f)) k ↔ r.Absorbs (value ∘ f) ranges k := by
  simp [Absorbs, map]

theorem startsAt_map (n : Int32) : startsAt value (ranges.map (map f)) n = startsAt (value ∘ f) ranges n := by
  simp [startsAt, map]

theorem endsAt_map (n : Int32) : endsAt value (ranges.map (map f)) n = endsAt (value ∘ f) ranges n := by
  simp [endsAt, map]

end

/-- An exact merge stays one if other endpoints with the same numbers stand in the place of the endpoints. -/
theorem IsExactMerge.map {f : α → β} {value : β → Int32} (h : IsExactMerge (value ∘ f) ranges out) :
    IsExactMerge value (ranges.map (map f)) (out.map (Range.map f)) := by
  refine ⟨fun n => ?_, forall_mem_map.2 h.ordered, ?_, fun other hother => ?_, ?_, ?_, ?_⟩
  · rw [exists_covers_map, exists_covers_map, h.covers_iff]
  · rw [pairwise_map]
    refine h.apart.imp ?_
    rintro r r' ⟨n, hn, hbetween⟩
    exact ⟨n, forall_mem_map.2 hn, hbetween⟩
  · rw [length_map]
    exact h.shortest other fun n => (hother n).trans (exists_covers_map f value ranges n)
  · simp only [pairwise_map, absorbs_map]
    exact h.order
  · rw [forall_mem_map]
    intro r hr
    obtain ⟨i, s, hleast, hs, hfirst⟩ := h.first r hr
    refine ⟨i, s.map f, ?_, by rw [getElem?_map, hs]; rfl, congrArg f hfirst⟩
    rw [startsAt_map]
    exact hleast
  · rw [forall_mem_map]
    intro r hr
    obtain ⟨i, s, hgreatest, hs, hlast⟩ := h.last r hr
    refine ⟨i, s.map f, ?_, by rw [getElem?_map, hs]; rfl, congrArg f hlast⟩
    rw [endsAt_map]
    exact hgreatest

theorem marks_congr {value' : α → Int32} : ∀ {ranges : List (Range α)} {i : Nat},
    (∀ r ∈ ranges, value r.first = value' r.first ∧ value r.last = value' r.last) →
      marks value i ranges = marks value' i ranges
  | [], _, _ => rfl
  | r :: rest, i, h => by
    obtain ⟨hfirst, hlast⟩ := h r mem_cons_self
    rw [marks, marks, hfirst, hlast, marks_congr fun r' hr' => h r' (mem_cons_of_mem _ hr')]

theorem merge_congr {value' : α → Int32}
    (h : ∀ r ∈ ranges, value r.first = value' r.first ∧ value r.last = value' r.last) :
    merge value ranges = merge value' ranges := by
  rw [merge, merge, marks_congr h]

end Range

namespace Graph

variable {g : Graph}

/-- The number of the character that is referred to. -/
def number (g : Graph) (r : Ref) : Int32 := ((g.character? r).map Character.value).getD 0

theorem exists_endpoint? {r : Ref} (h : g.character? r ≠ none) :
    ∃ e : NodeId × Character, g.endpoint? r = some e ∧ r = some e.1 ∧ e.2.value = g.number r := by
  obtain ⟨c, hc⟩ := Option.ne_none_iff_exists'.1 h
  cases r with
  | none => cases hc
  | some i => exact ⟨(i, c), by simp [endpoint?, hc], rfl, by simp [number, hc]⟩

theorem exists_mapM_endpoint? : ∀ {ranges : List (Range Ref)},
    (∀ r ∈ ranges, g.character? r.first ≠ none ∧ g.character? r.last ≠ none) →
      ∃ rs : List (Range (NodeId × Character)), (ranges.mapM fun r => r.mapM? g.endpoint?) = some rs ∧
        ranges = rs.map (Range.map fun e => some e.1) ∧
          ∀ r ∈ rs, r.first.2.value = g.number (some r.first.1) ∧ r.last.2.value = g.number (some r.last.1)
  | [], _ => ⟨[], rfl, rfl, fun _ h => nomatch h⟩
  | r :: ranges, h => by
    obtain ⟨hfirst, hlast⟩ := h r mem_cons_self
    obtain ⟨a, ha, hra, hanumber⟩ := exists_endpoint? hfirst
    obtain ⟨b, hb, hrb, hbnumber⟩ := exists_endpoint? hlast
    obtain ⟨rs, hrs, hranges, hnumbers⟩ := exists_mapM_endpoint? fun r' hr' => h r' (mem_cons_of_mem _ hr')
    refine ⟨⟨a, b⟩ :: rs, ?_, ?_, forall_mem_cons.2 ⟨⟨hra ▸ hanumber, hrb ▸ hbnumber⟩, hnumbers⟩⟩
    · rw [mapM_cons, hrs]
      simp [Range.mapM?, ha, hb]
    · rw [map_cons, ← hranges, Range.map, ← hra, ← hrb]

/-- The endpoints of the ranges are characters, no range is inverted, and the numbers of the endpoints differ by less
than `2 ^ 31`. -/
structure AreMergeable (g : Graph) (ranges : List (Range Ref)) : Prop where
  characters : ∀ a ∈ Range.endpoints ranges, g.character? a ≠ none
  ordered : ∀ r ∈ ranges, g.number r.first ≤ g.number r.last
  near : ∀ a ∈ Range.endpoints ranges, ∀ b ∈ Range.endpoints ranges, (g.number a).toInt - (g.number b).toInt < 2 ^ 31

theorem AreMergeable.exists_merged {ranges : List (Range Ref)} (h : g.AreMergeable ranges) :
    ∃ out, g.mergeRanges ranges = .ok out ∧ Range.IsExactMerge g.number ranges out := by
  obtain ⟨rs, hrs, rfl, hnumbers⟩ := exists_mapM_endpoint? (Range.forall_mem_endpoints.1 h.characters)
  have hmerge : Range.merge (fun e => e.2.value) rs = Range.merge (g.number ∘ fun e => some e.1) rs :=
    Range.merge_congr hnumbers
  have hendpoints : Range.endpoints (rs.map (Range.map fun e => some e.1)) =
      (Range.endpoints rs).map fun e => some e.1 := by
    simp [Range.endpoints, Range.map, flatMap_map, map_flatMap]
  have hordered : ∀ r ∈ rs, (g.number ∘ fun e => some e.1) r.first ≤ (g.number ∘ fun e => some e.1) r.last :=
    forall_mem_map.1 h.ordered
  have hnear := h.near
  rw [hendpoints] at hnear
  obtain ⟨out, hout, hexact⟩ := Range.exists_isExactMerge hordered fun a ha b hb =>
    hnear _ (mem_map_of_mem ha) _ (mem_map_of_mem hb)
  refine ⟨out.map (Range.map fun e => some e.1), ?_, hexact.map⟩
  have hmerged := congrArg (List.map fun p => (⟨p.1.map (·.1), some p.2.1⟩ : Range Ref)) hout
  rw [map_map, map_map] at hmerged
  simp only [mergeRanges, hrs, hmerge]
  exact congrArg Except.ok hmerged

/-- **Merging the ranges of a set is exact.** If the endpoints of the ranges are characters, no range is inverted
and the numbers of the endpoints differ by less than `2 ^ 31`, then the merged ranges exist. They cover the same
numbers as the ranges. None of them is inverted, a number that is not covered lies between any two of them, and no
shorter list covers the same numbers. They stand in the order of the smallest indices of the ranges that they
contain. The node at which one begins is that of the first range that begins at its number, and the node at which
it ends is that of the last range that ends at its number. -/
theorem mergeRanges_exact (g : Graph) (ranges : List (Range Ref))
    (hcharacters : ∀ r ∈ ranges, g.character? r.first ≠ none ∧ g.character? r.last ≠ none)
    (hordered : ∀ r ∈ ranges, g.number r.first ≤ g.number r.last)
    (hnear : ∀ a ∈ Range.endpoints ranges, ∀ b ∈ Range.endpoints ranges,
      (g.number a).toInt - (g.number b).toInt < 2 ^ 31) :
    ∃ out, g.mergeRanges ranges = .ok out ∧ Range.IsExactMerge g.number ranges out :=
  AreMergeable.exists_merged ⟨Range.forall_mem_endpoints.2 hcharacters, hordered, hnear⟩

/-- The letters `m`, `p`, `a`, `f`, `q`, `z` and `c`, with `a` a second time under another spelling. -/
def endpointLetters : Graph :=
  ⟨#[.leaf (.character (.plain 109)), .leaf (.character (.plain 112)), .leaf (.character (.plain 97)),
    .leaf (.character (.plain 102)), .leaf (.character (.plain 113)), .leaf (.character (.plain 122)),
    .leaf (.character (.hexCode 97)), .leaf (.character (.plain 99))]⟩

/-- `q-z` touches `m-p`, and `\x61-c` lies in `a-f`. -/
theorem mergeRanges_endpointLetters :
    endpointLetters.mergeRanges [⟨some 0, some 1⟩, ⟨some 2, some 3⟩, ⟨some 4, some 5⟩, ⟨some 6, some 7⟩] =
      .ok [⟨some 0, some 5⟩, ⟨some 2, some 3⟩] := by
  simp [mergeRanges, endpointLetters, endpoint?, character?, deref?, node?, Range.mapM?, Range.merge, Range.marks,
    mergeSort, Range.Mark.le, Range.sweep, Range.touches, Character.value]

theorem mergeRanges_exact_endpointLetters :
    endpointLetters.mergeRanges [⟨some 0, some 1⟩, ⟨some 2, some 3⟩, ⟨some 4, some 5⟩, ⟨some 6, some 7⟩] =
        .ok [⟨some 0, some 5⟩, ⟨some 2, some 3⟩] ∧
      Range.IsExactMerge endpointLetters.number
        [⟨some 0, some 1⟩, ⟨some 2, some 3⟩, ⟨some 4, some 5⟩, ⟨some 6, some 7⟩]
        [⟨some 0, some 5⟩, ⟨some 2, some 3⟩] := by
  obtain ⟨out, hout, hexact⟩ := mergeRanges_exact endpointLetters
    [⟨some 0, some 1⟩, ⟨some 2, some 3⟩, ⟨some 4, some 5⟩, ⟨some 6, some 7⟩]
    (by decide) (by decide) (by decide)
  cases mergeRanges_endpointLetters.symm.trans hout
  exact ⟨hout, hexact⟩

end Graph
end RegexBuilder
