/-
# The sweep cuts the endpoints into blocks

The sweep of `Range.merge` goes through the endpoints of the ranges in order (`Mark.pairwise_before`). A block begins
with an endpoint at which no range is open, and ends with the first endpoint after which none is open and which the
next one does not touch. Each block becomes one fused range (`Ready.exists_blocks`).

Whether a number is covered is seen in counts: the ranges that hold `n` are those that have started at `n` or before,
less those that have ended before `n` (`Ready.closable`).
-/

import Mathlib.Algebra.Group.Int.Defs
import Mathlib.Order.Bounds.Basic
import Mathlib.Tactic.Common
import RegexBuilder.Pattern.RangeMerge

namespace RegexBuilder.Range

open List

variable {α : Type}

/-! ### Endpoints in order -/

namespace Mark

/-- The number of the endpoint. -/
def number (m : Mark α) : Int := m.value.toInt

/-- The order in which the sweep meets endpoints: increasing numbers, starts before ends, and starts or ends at
one number in the order of their ranges. -/
def Before (a b : Mark α) : Prop :=
  a.number < b.number ∨ a.number = b.number ∧
    (a.closes = false ∧ b.closes = true ∨ a.closes = b.closes ∧ a.source ≤ b.source)

theorem Before.number_le {a b : Mark α} (h : a.Before b) : a.number ≤ b.number := by
  rcases h with h | ⟨h, -⟩ <;> omega

theorem le_iff {a b : Mark α} : a.le b = true ↔
    a.number < b.number ∨ a.number = b.number ∧ (a.closes = false ∨ b.closes = true) := by
  simp [le, number, Int32.lt_iff_toInt_lt, Int32.toInt_inj]

theorem le_trans (a b c : Mark α) (hab : a.le b = true) (hbc : b.le c = true) : a.le c = true := by
  rw [le_iff] at hab hbc ⊢
  grind

theorem le_total (a b : Mark α) : (a.le b || b.le a) = true := by
  rw [Bool.or_eq_true, le_iff, le_iff]
  grind

end Mark

/-- The endpoints stand in the order of their ranges. -/
theorem source_of_getElem?_marks (value : α → Int32) : ∀ {ranges : List (Range α)} {i k : Nat} {m : Mark α},
    (marks value i ranges)[k]? = some m → m.source = i + k / 2
  | [], _, _, _, h => by simp [marks] at h
  | r :: rest, i, 0, m, h => by
    simp only [marks, getElem?_cons_zero, Option.some.injEq] at h
    simp [← h]
  | r :: rest, i, 1, m, h => by
    simp only [marks, getElem?_cons_succ, getElem?_cons_zero, Option.some.injEq] at h
    simp [← h]
  | r :: rest, i, k + 2, m, h => by
    simp only [marks, getElem?_cons_succ] at h
    have := source_of_getElem?_marks value h
    omega

/-- Each range has a start and an end. -/
theorem mem_marks {value : α → Int32} {m : Mark α} : ∀ {ranges : List (Range α)} {i : Nat},
    m ∈ marks value i ranges ↔ ∃ j r, ranges[j]? = some r ∧
      (m = ⟨r.first, value r.first, false, i + j⟩ ∨ m = ⟨r.last, value r.last, true, i + j⟩)
  | [], _ => by simp [marks]
  | r :: rest, i => by
    rw [marks, mem_cons, mem_cons, mem_marks, ← or_assoc]
    constructor
    · rintro (h | ⟨j, r', hr', h⟩)
      · exact ⟨0, r, rfl, h⟩
      · refine ⟨j + 1, r', hr', ?_⟩
        rwa [show i + (j + 1) = i + 1 + j by omega]
    · rintro ⟨_ | j, r', hr', h⟩
      · cases hr'
        exact .inl h
      · refine .inr ⟨j, r', hr', ?_⟩
        rwa [show i + 1 + j = i + (j + 1) by omega]

/-- **The endpoints are met in order.** Those of one number and kind stay in the order of their ranges, because
the sort is stable. -/
theorem Mark.pairwise_before (value : α → Int32) (ranges : List (Range α)) :
    ((marks value 0 ranges).mergeSort Mark.le).Pairwise Mark.Before := by
  have hsorted := pairwise_mergeSort (zipIdxLE_trans (Mark.le_trans (α := α)))
    (zipIdxLE_total Mark.le_total) (marks value 0 ranges).zipIdx
  rw [← mergeSort_zipIdx, pairwise_map]
  refine hsorted.imp_of_mem fun {a b} ha hb hab => ?_
  have hsource : ∀ x ∈ (marks value 0 ranges).zipIdx.mergeSort (List.zipIdxLE Mark.le), x.1.source = x.2 / 2 := by
    intro x hx
    rw [source_of_getElem?_marks value (mem_zipIdx_iff_getElem?.1 (mem_mergeSort.1 hx)), Nat.zero_add]
  have hplace : a.1.le b.1 = true ∧ (b.1.le a.1 = true → a.1.source ≤ b.1.source) := by
    rw [hsource a ha, hsource b hb]
    grind [List.zipIdxLE]
  rw [Mark.le_iff, Mark.le_iff] at hplace
  grind [Mark.Before]

/-! ### Counting endpoints -/

/-- How many ranges have started, or have ended if `c`, at `n` or before. -/
def passed (c : Bool) (ms : List (Mark α)) (n : Int) : Nat := ms.countP fun m => m.closes == c && decide (m.number ≤ n)

section

variable {m : Mark α} {ms ms' : List (Mark α)} {n : Int} {c : Bool}

/-- What has passed is counted part by part. -/
theorem passed_append : passed c (ms ++ ms') n = passed c ms n + passed c ms' n := countP_append

theorem passed_cons_of_ne (hm : m.closes ≠ c) : passed c (m :: ms) n = passed c ms n := by
  simp [passed, hm]

theorem passed_cons_of_le (hm : m.closes = c) (hn : m.number ≤ n) : passed c (m :: ms) n = passed c ms n + 1 := by
  simp [passed, hm, hn]

/-- Before all starts, or ends, none has passed. -/
theorem passed_eq_zero (h : ∀ m ∈ ms, m.closes = c → n < m.number) : passed c ms n = 0 := by
  rw [passed, countP_eq_zero]
  intro m hm
  simp only [Bool.and_eq_true, beq_iff_eq, decide_eq_true_eq, not_and, not_le]
  exact h m hm

/-- Beyond all endpoints everything has started and ended. -/
theorem passed_of_forall_le (h : ∀ m ∈ ms, m.number ≤ n) : passed c ms n = ms.countP (·.closes == c) :=
  countP_congr fun m hm => by simp [h m hm]

end

/-! ### One block -/

/-- The sweep has come to `lo`, with `depth` ranges open and the endpoints `ms` ahead. -/
structure Ready (lo depth : Int) (ms : List (Mark α)) : Prop where
  nonneg : 0 ≤ depth
  sorted : ms.Pairwise Mark.Before
  ahead : ∀ m ∈ ms, lo ≤ m.number
  /-- No more ranges end than are open or start. -/
  closable : ∀ n, lo ≤ n → (passed true ms n : Int) ≤ depth + passed false ms n
  /-- In the end all ranges have ended. -/
  total : depth + ms.countP (·.closes == false) = (ms.countP (·.closes == true) : Nat)
  near : ∀ m ∈ ms, ∀ m' ∈ ms, m'.number - m.number < 2 ^ 31

/-- The distance to the next endpoint is what it seems, if the endpoints are near to each other. -/
theorem touches_iff {m : Mark α} {ms : List (Mark α)} (hle : ∀ m' ∈ ms, m.number ≤ m'.number)
    (hnear : ∀ m' ∈ ms, m'.number - m.number < 2 ^ 31) :
    touches m.value ms = true ↔ ∃ m' rest, ms = m' :: rest ∧ m'.number ≤ m.number + 1 := by
  cases ms with
  | nil => simp [touches]
  | cons m' rest =>
    have hle' := hle m' mem_cons_self
    have hnear' := hnear m' mem_cons_self
    have hsub : (m'.value - m.value).toInt = m'.number - m.number := by
      unfold Mark.number at hle' hnear' ⊢
      rw [Int32.toInt_sub]
      exact Int.bmod_eq_of_le (by omega) (by omega)
    have hone : Int32.toInt 1 = 1 := by decide
    simp only [touches, decide_eq_true_eq, Int32.le_iff_toInt_le, hsub, hone]
    constructor
    · intro h
      exact ⟨m', rest, rfl, by omega⟩
    · rintro ⟨_, _, ⟨⟩, h⟩
      omega

namespace Ready

variable {lo depth : Int} {m : Mark α} {ms : List (Mark α)} (h : Ready lo depth (m :: ms))

include h

/-- Behind an end there is no start at the same number. -/
theorem lt_of_closes (hm : m.closes = true) : ∀ m' ∈ ms, m'.closes = false → m.number < m'.number := by
  intro m' hm' hopens
  have hbefore := rel_of_pairwise_cons h.sorted hm'
  grind [Mark.Before]

theorem pos_of_closes (hm : m.closes = true) : 1 ≤ depth := by
  have hclosable := h.closable m.number (h.ahead m mem_cons_self)
  rw [passed_cons_of_le hm (Int.le_refl _), passed_cons_of_ne (by simp [hm]), passed_eq_zero (h.lt_of_closes hm)]
    at hclosable
  omega

theorem number_le : ∀ m' ∈ m :: ms, m.number ≤ m'.number := by
  intro m' hm'
  rcases mem_cons.1 hm' with rfl | hm'
  · exact Int.le_refl _
  · exact (rel_of_pairwise_cons h.sorted hm').number_le

/-- What is known of the endpoints ahead stays known one endpoint further. -/
theorem tail_of_depth {d : Int} (hd : 0 ≤ d)
    (hclosable : ∀ n, m.number ≤ n → (passed true ms n : Int) ≤ d + passed false ms n)
    (htotal : d + ms.countP (·.closes == false) = (ms.countP (·.closes == true) : Nat)) : Ready m.number d ms :=
  ⟨hd, h.sorted.of_cons, fun m' hm' => h.number_le m' (mem_cons_of_mem _ hm'), hclosable, htotal,
    fun a ha b hb => h.near a (mem_cons_of_mem _ ha) b (mem_cons_of_mem _ hb)⟩

theorem tail_of_opens (hm : m.closes = false) : Ready m.number (depth + 1) ms := by
  refine h.tail_of_depth (Int.le_add_one h.nonneg) (fun n hn => ?_) ?_
  · have := h.closable n (Int.le_trans (h.ahead m mem_cons_self) hn)
    rw [passed_cons_of_ne (by simp [hm]), passed_cons_of_le hm hn] at this
    omega
  · have := h.total
    rw [countP_cons_of_pos (by simp [hm]), countP_cons_of_neg (by simp [hm])] at this
    omega

theorem tail_of_closes (hm : m.closes = true) : Ready m.number (depth - 1) ms := by
  refine h.tail_of_depth (Int.sub_nonneg_of_le (h.pos_of_closes hm)) (fun n hn => ?_) ?_
  · have := h.closable n (Int.le_trans (h.ahead m mem_cons_self) hn)
    rw [passed_cons_of_le hm hn, passed_cons_of_ne (by simp [hm])] at this
    omega
  · have := h.total
    rw [countP_cons_of_neg (by simp [hm]), countP_cons_of_pos (by simp [hm])] at this
    omega

/-- Nothing has ended before the next endpoint. -/
theorem none_closed {n : Int} (hn : n ≤ m.number) : passed true (m :: ms) (n - 1) = 0 :=
  passed_eq_zero fun m' hm' _ => by
    have := h.number_le m' hm'
    omega

end Ready

/-- `tag` is the smallest of `source` and the indices of the ranges that start among the endpoints. -/
structure IsTag (source : Nat) (ms : List (Mark α)) (tag : Nat) : Prop where
  mem : tag = source ∨ ∃ m ∈ ms, m.closes = false ∧ m.source = tag
  le : tag ≤ source
  le_of_mem : ∀ m ∈ ms, m.closes = false → tag ≤ m.source

namespace IsTag

variable {source tag : Nat} {m : Mark α} {ms : List (Mark α)}

theorem nil (source : Nat) : IsTag source ([] : List (Mark α)) source :=
  ⟨.inl rfl, Nat.le_refl _, fun _ hm => nomatch hm⟩

theorem cons_opens (hm : m.closes = false) (h : IsTag (min source m.source) ms tag) : IsTag source (m :: ms) tag := by
  refine ⟨?_, h.le.trans (Nat.min_le_left _ _), forall_mem_cons.2 ⟨fun _ => ?_, h.le_of_mem⟩⟩
  · rcases h.mem with htag | ⟨m', hm', htag⟩
    · rcases Nat.le_total source m.source with hle | hle
      · exact .inl (htag.trans (Nat.min_eq_left hle))
      · exact .inr ⟨m, mem_cons_self, hm, (htag.trans (Nat.min_eq_right hle)).symm⟩
    · exact .inr ⟨m', mem_cons_of_mem _ hm', htag⟩
  · exact h.le.trans (Nat.min_le_right _ _)

theorem cons_closes (hm : m.closes = true) (h : IsTag source ms tag) : IsTag source (m :: ms) tag := by
  refine ⟨h.mem.imp id ?_, h.le, forall_mem_cons.2 ⟨fun hopens => ?_, h.le_of_mem⟩⟩
  · rintro ⟨m', hm', htag⟩
    exact ⟨m', mem_cons_of_mem _ hm', htag⟩
  · rw [hm] at hopens
    cases hopens

end IsTag

/-- The endpoints `ms`, met with a block open since `a`, are the rest of the block, which ends with `z` and has the
smallest index `tag`, and the endpoints `rest` behind it. -/
structure Cuts (lo depth : Int) (a : α) (source : Nat) (ms inner : List (Mark α)) (z : Mark α)
    (rest : List (Mark α)) (tag : Nat) : Prop where
  eq : ms = inner ++ z :: rest
  closes : z.closes = true
  sweep_eq : sweep ms depth (some a) source = ⟨some a, z.point, tag⟩ :: sweep rest 0 none tag
  covered : ∀ n, lo < n → n ≤ z.number → (passed true ms (n - 1) : Int) < depth + passed false ms n
  ready : Ready z.number 0 rest
  gap : ∀ m ∈ rest, z.number + 1 < m.number
  isTag : IsTag source inner tag

namespace Ready

variable {lo depth : Int} {m z : Mark α} {ms inner rest : List (Mark α)} {a : α} {source tag : Nat}

/-- A block that ends here. -/
theorem cuts_end (h : Ready lo depth (m :: ms)) (hm : m.closes = true) (hdepth : depth = 1)
    (hgap : touches m.value ms = false) : Cuts lo depth a source (m :: ms) [] m ms source := by
  subst hdepth
  have hready := h.tail_of_closes hm
  refine ⟨rfl, hm, ?_, fun n _ hn => ?_, hready, fun m' hm' => ?_, .nil source⟩
  · simp [sweep, hm, hgap]
  · rw [h.none_closed hn]
    omega
  · -- the next endpoint does not touch, and all others are behind it
    have hnear := fun m' (hm' : m' ∈ ms) => h.near m mem_cons_self m' (mem_cons_of_mem _ hm')
    have hnot := mt (touches_iff hready.ahead hnear).2 (Bool.eq_false_iff.1 hgap)
    cases ms with
    | nil => cases hm'
    | cons next rest =>
      have hle := hready.number_le m' hm'
      have hnext : ¬ next.number ≤ m.number + 1 := fun hle => hnot ⟨next, rest, rfl, hle⟩
      omega

theorem cuts_opens (h : Ready lo depth (m :: ms)) (hm : m.closes = false) (hnext : depth = 0 → m.number ≤ lo + 1)
    (hcuts : Cuts m.number (depth + 1) a (min source m.source) ms inner z rest tag) :
    Cuts lo depth a source (m :: ms) (m :: inner) z rest tag := by
  have hnonneg := h.nonneg
  refine ⟨?_, hcuts.closes, ?_, fun n hlo hn => ?_, hcuts.ready, hcuts.gap, hcuts.isTag.cons_opens hm⟩
  · rw [hcuts.eq, cons_append]
  · rw [← hcuts.sweep_eq, sweep]
    simp [hm]
  · by_cases hle : n ≤ m.number
    · rw [h.none_closed hle]
      by_cases hdepth : depth = 0
      · -- no range is open, but this one starts right behind the last one
        have := hnext hdepth
        rw [passed_cons_of_le hm (by omega)]
        omega
      · omega
    · have := hcuts.covered n (by omega) hn
      rw [passed_cons_of_ne (by simp [hm]), passed_cons_of_le hm (by omega)]
      omega

/-- A range ends in the block, and the block goes on. -/
theorem cuts_closes (h : Ready lo depth (m :: ms)) (hm : m.closes = true)
    (hgo : depth - 1 > 0 ∨ touches m.value ms = true) (hcuts : Cuts m.number (depth - 1) a source ms inner z rest tag) :
    Cuts lo depth a source (m :: ms) (m :: inner) z rest tag := by
  have hpos := h.pos_of_closes hm
  refine ⟨?_, hcuts.closes, ?_, fun n hlo hn => ?_, hcuts.ready, hcuts.gap, hcuts.isTag.cons_closes hm⟩
  · rw [hcuts.eq, cons_append]
  · rw [← hcuts.sweep_eq, sweep]
    simp only [hm, if_true, Bool.or_eq_true, decide_eq_true_eq, if_pos hgo]
  · by_cases hle : n ≤ m.number
    · rw [h.none_closed hle]
      omega
    · have := hcuts.covered n (by omega) hn
      rw [passed_cons_of_le hm (by omega), passed_cons_of_ne (by simp [hm])]
      omega

/-- **What becomes of one block.** The sweep goes on to the end of the block, and all numbers on the way are covered.
-/
theorem exists_block (a : α) : ∀ {ms : List (Mark α)} {lo depth : Int} (source : Nat), Ready lo depth ms →
    (depth = 0 → ∃ m rest, ms = m :: rest ∧ m.number ≤ lo + 1) →
      ∃ inner z rest tag, Cuts lo depth a source ms inner z rest tag
  | [], lo, depth, source, h, hnext => by
    obtain ⟨m, rest, hms, -⟩ := hnext (by simpa using h.total)
    cases hms
  | m :: ms, lo, depth, source, h, hnext => by
    cases hm : m.closes with
    | false =>
      have hnonneg := h.nonneg
      obtain ⟨inner, z, rest, tag, hcuts⟩ := exists_block a (min source m.source) (h.tail_of_opens hm)
        fun hdepth => by omega
      refine ⟨m :: inner, z, rest, tag, h.cuts_opens hm (fun hdepth => ?_) hcuts⟩
      obtain ⟨_, _, hms, hle⟩ := hnext hdepth
      cases hms
      exact hle
    | true =>
      have hready := h.tail_of_closes hm
      by_cases hgo : depth - 1 > 0 ∨ touches m.value ms = true
      · obtain ⟨inner, z, rest, tag, hcuts⟩ := exists_block a source hready fun hdepth =>
          (touches_iff hready.ahead fun m' hm' => h.near m mem_cons_self m'
            (mem_cons_of_mem _ hm')).1 (hgo.resolve_left (by omega))
        exact ⟨m :: inner, z, rest, tag, h.cuts_closes hm hgo hcuts⟩
      · have hpos := h.pos_of_closes hm
        rw [not_or, Bool.not_eq_true] at hgo
        exact ⟨[], m, ms, source, h.cuts_end hm (by omega) hgo.2⟩

end Ready

/-! ### All blocks -/

/-- The endpoints at which a fused range begins and ends, and its smallest index. -/
structure Block (α : Type) where
  opening : Mark α
  closing : Mark α
  source : Nat

namespace Block

/-- The fused range. -/
def fused (b : Block α) : Fused α := ⟨some b.opening.point, b.closing.point, b.source⟩

/-- The number lies in the fused range. -/
def Holds (b : Block α) (n : Int) : Prop := b.opening.number ≤ n ∧ n ≤ b.closing.number

/-- The block `b` lies before `b'`, and there is a number between them. -/
def Precedes (b b' : Block α) : Prop := b.closing.number + 1 < b'.opening.number

/-- The block begins with the first start of its number and ends with the last end of its number, and its index is
the smallest one of the ranges that start in it. -/
structure IsIn (ms : List (Mark α)) (b : Block α) : Prop where
  opening_mem : b.opening ∈ ms
  closing_mem : b.closing ∈ ms
  opens : b.opening.closes = false
  closes : b.closing.closes = true
  le : b.opening.number ≤ b.closing.number
  lowest : ∀ m ∈ ms, m.closes = false → m.number = b.opening.number → b.opening.source ≤ m.source
  highest : ∀ m ∈ ms, m.closes = true → m.number = b.closing.number → m.source ≤ b.closing.source
  exists_source : ∃ m ∈ ms, m.closes = false ∧ b.Holds m.number ∧ m.source = b.source
  source_le : ∀ m ∈ ms, m.closes = false → b.Holds m.number → b.source ≤ m.source

/-- Endpoints before all others do not matter to the blocks of the others. -/
theorem IsIn.of_append {front ms : List (Mark α)} {b : Block α} (h : b.IsIn ms)
    (hfront : ∀ m ∈ front, ∀ m' ∈ ms, m.number < m'.number) : b.IsIn (front ++ ms) := by
  have hopening := fun m hm => hfront m hm _ h.opening_mem
  have hclosing := fun m hm => hfront m hm _ h.closing_mem
  refine ⟨mem_append_right _ h.opening_mem, mem_append_right _ h.closing_mem, h.opens, h.closes, h.le,
    fun m hm => ?_, fun m hm => ?_, ?_, fun m hm => ?_⟩
  · rcases mem_append.1 hm with hm | hm
    · exact fun _ heq => absurd heq (Int.ne_of_lt (hopening m hm))
    · exact h.lowest m hm
  · rcases mem_append.1 hm with hm | hm
    · exact fun _ heq => absurd heq (Int.ne_of_lt (hclosing m hm))
    · exact h.highest m hm
  · obtain ⟨m, hm, hsource⟩ := h.exists_source
    exact ⟨m, mem_append_right _ hm, hsource⟩
  · rcases mem_append.1 hm with hm | hm
    · exact fun _ hholds => absurd hholds.1 (Int.not_le.2 (hopening m hm))
    · exact h.source_le m hm

end Block

namespace Cuts

variable {m z : Mark α} {ms inner rest : List (Mark α)} {a : α} {tag : Nat}

theorem isIn (h : Cuts m.number 1 a m.source ms inner z rest tag) (hm : m.closes = false)
    (hsorted : (m :: ms).Pairwise Mark.Before) : (⟨m, z, tag⟩ : Block α).IsIn (m :: ms) := by
  have hz : z ∈ ms := h.eq ▸ mem_append_right _ mem_cons_self
  have hinner : ∀ m' ∈ inner, m'.Before z := by
    have := h.eq ▸ hsorted.of_cons
    exact fun m' hm' => (pairwise_append.1 this).2.2 m' hm' z mem_cons_self
  have hmem : ∀ m' ∈ m :: ms, m' = m ∨ m' ∈ inner ∨ m' = z ∨ z.number + 1 < m'.number := by
    intro m' hm'
    rw [h.eq, mem_cons, mem_append, mem_cons] at hm'
    exact hm'.imp id (Or.imp id (Or.imp id (h.gap m')))
  have hbefore : ∀ m' ∈ ms, m.Before m' := fun m' hm' => rel_of_pairwise_cons hsorted hm'
  refine ⟨mem_cons_self, mem_cons_of_mem _ hz, hm, h.closes, (hbefore z hz).number_le,
    fun m' hm' hopens heq => ?_, fun m' hm' hcloses heq => ?_, ?_, fun m' hm' hopens hholds => ?_⟩
  · rcases mem_cons.1 hm' with rfl | hm'
    · exact Nat.le_refl _
    · have := hbefore m' hm'
      grind [Mark.Before]
  · rcases hmem m' hm' with rfl | hin | rfl | hlt
    · rw [hm] at hcloses
      cases hcloses
    · have := hinner m' hin
      grind [Mark.Before, h.closes]
    · exact Nat.le_refl _
    · exact absurd heq (by simp only; omega)
  · rcases h.isTag.mem with htag | ⟨m', hm', hopens, htag⟩
    · exact ⟨m, mem_cons_self, hm, ⟨Int.le_refl _, (hbefore z hz).number_le⟩, htag.symm⟩
    · have hmem' : m' ∈ ms := h.eq ▸ mem_append_left _ hm'
      exact ⟨m', mem_cons_of_mem _ hmem', hopens, ⟨(hbefore m' hmem').number_le, (hinner m' hm').number_le⟩, htag⟩
  · rcases hmem m' hm' with rfl | hin | rfl | hlt
    · exact h.isTag.le
    · exact h.isTag.le_of_mem m' hin hopens
    · rw [h.closes] at hopens
      cases hopens
    · exact absurd hholds.2 (by simp only; omega)

end Cuts

/-- The blocks tell which numbers are covered, and there is a number between any two of them. -/
structure AreBlocks (ms : List (Mark α)) (bs : List (Block α)) : Prop where
  isIn : ∀ b ∈ bs, b.IsIn ms
  apart : bs.Pairwise Block.Precedes
  holds_iff : ∀ n, (∃ b ∈ bs, b.Holds n) ↔ passed true ms (n - 1) < passed false ms n

/-- A block and the blocks behind it. -/
theorem Cuts.areBlocks {lo : Int} {m z : Mark α} {ms inner rest : List (Mark α)} {a : α} {tag : Nat}
    (h : Cuts m.number 1 a m.source ms inner z rest tag) (hready : Ready lo 0 (m :: ms))
    (hm : m.closes = false) {bs : List (Block α)} (hbs : AreBlocks rest bs) :
    AreBlocks (m :: ms) (⟨m, z, tag⟩ :: bs) := by
  have hms : m :: ms = (m :: inner ++ [z]) ++ rest := by simp [h.eq]
  have hfront : ∀ m' ∈ m :: inner ++ [z], m'.number ≤ z.number := by
    have hsorted := hms ▸ hready.sorted
    intro m' hm'
    rcases mem_append.1 hm' with hin | hz
    · exact ((pairwise_append.1 (pairwise_append.1 hsorted).1).2.2 m' hin z
        (mem_singleton.2 rfl)).number_le
    · rw [mem_singleton.1 hz]
  have hlt : ∀ m' ∈ m :: inner ++ [z], ∀ m'' ∈ rest, m'.number + 1 < m''.number := by
    intro m' hm' m'' hm''
    have := hfront m' hm'
    have := h.gap m'' hm''
    omega
  refine ⟨forall_mem_cons.2 ⟨h.isIn hm hready.sorted, fun b hb => ?_⟩,
    pairwise_cons.2 ⟨fun b hb => h.gap _ (hbs.isIn b hb).opening_mem, hbs.apart⟩, fun n => ?_⟩
  · rw [hms]
    refine (hbs.isIn b hb).of_append fun m' hm' m'' hm'' => ?_
    have := hlt m' hm' m'' hm''
    omega
  · simp only [mem_cons, exists_eq_or_imp]
    by_cases hn : n ≤ z.number
    · -- before the end of this block, no other one counts
      have hothers : ¬ ∃ b ∈ bs, b.Holds n := by
        rintro ⟨b, hb, hle, -⟩
        have := h.gap _ (hbs.isIn b hb).opening_mem
        omega
      rw [or_iff_left hothers]
      rcases Int.lt_trichotomy n m.number with hlt | rfl | hlt
      · rw [passed_eq_zero fun m' hm' _ => Int.lt_of_lt_of_le hlt (hready.number_le m' hm')]
        exact iff_of_false (fun hholds => Int.not_le.2 hlt hholds.1) (Nat.not_lt_zero _)
      · rw [hready.none_closed (Int.le_refl _), passed_cons_of_le hm (Int.le_refl _)]
        exact iff_of_true ⟨Int.le_refl _, hn⟩ (Nat.succ_pos _)
      · have := h.covered n (by omega) hn
        rw [passed_cons_of_ne (by simp [hm]), passed_cons_of_le hm (by omega)]
        exact iff_of_true ⟨Int.le_of_lt hlt, hn⟩ (by omega)
    · -- behind its end, all ranges of this block have ended
      have hnot : ¬ (⟨m, z, tag⟩ : Block α).Holds n := fun hholds => hn hholds.2
      have hpassed : ∀ {c n'}, n - 1 ≤ n' →
          passed c (m :: ms) n' = (m :: inner ++ [z]).countP (·.closes == c) + passed c rest n' := fun hle => by
        rw [hms, passed_append, passed_of_forall_le fun m' hm' => (by have := hfront m' hm'; omega)]
      have hsplit : ∀ p : Mark α → Bool,
          (m :: ms).countP p = (m :: inner ++ [z]).countP p + rest.countP p := fun p => by
        rw [hms, countP_append]
      have htotal := hready.total
      have hrest := h.ready.total
      rw [hsplit, hsplit] at htotal
      rw [or_iff_right hnot, hbs.holds_iff, hpassed (Int.le_refl _), hpassed (Int.sub_le_self n Int.one_nonneg)]
      omega

/-- **What becomes of all blocks.** Each block is followed by others, up to the end. -/
theorem Ready.exists_blocks {lo : Int} {ms : List (Mark α)} (h : Ready lo 0 ms) (source : Nat) :
    ∃ bs : List (Block α), sweep ms 0 none source = bs.map Block.fused ∧ AreBlocks ms bs := by
  induction hlength : ms.length using Nat.strong_induction_on generalizing lo ms source with
  | _ k ih =>
    cases ms with
    | nil => exact ⟨[], rfl, fun _ hb => (nomatch hb), .nil, fun n => by simp [passed]⟩
    | cons m ms =>
      have hm : m.closes = false := by
        rw [← Bool.not_eq_true]
        intro hm
        have := h.pos_of_closes hm
        omega
      obtain ⟨inner, z, rest, tag, hcuts⟩ := exists_block m.point m.source (h.tail_of_opens hm) fun hdepth => by omega
      have hshorter : rest.length < k := by
        rw [← hlength, hcuts.eq, length_cons, length_append, length_cons]
        omega
      obtain ⟨bs, hsweep, hbs⟩ := ih rest.length hshorter hcuts.ready tag rfl
      refine ⟨⟨m, z, tag⟩ :: bs, ?_, hcuts.areBlocks h hm hbs⟩
      rw [map_cons, ← hsweep]
      refine Eq.trans ?_ hcuts.sweep_eq
      simp [sweep, hm]

end RegexBuilder.Range
