/-
# Merged ranges are a normal form

The merged pairs of numbers are the longest runs of covered numbers (`Range.IsRun`, `IsExactMerge.mem_spans_iff`). So
there is one exact merge of given ranges at most (`IsExactMerge.unique`), and an exact merge is one of itself
(`IsExactMerge.self`), which is all that merging twice needs (`Graph.mergeRanges_normal_form`).
-/

import RegexBuilder.Proofs.ExactMerge
import RegexBuilder.Proofs.Planting

namespace RegexBuilder

open List
namespace Range

variable {α β : Type} {value : α → Int32} {ranges out out' : List (Range α)} {r r' : Range α}

/-! ### Runs of covered numbers -/

/-- The number lies in one of the ranges. -/
def Covered (value : α → Int32) (ranges : List (Range α)) (n : Int32) : Prop := ∃ r ∈ ranges, r.Covers value n

/-- The numbers of the endpoints. -/
def span (value : α → Int32) (r : Range α) : Int32 × Int32 := (value r.first, value r.last)

/-- All numbers from `a` to `b` are in `C`, and this is true of no longer stretch of numbers around them. -/
structure IsRun (C : Int32 → Prop) (a b : Int32) : Prop where
  le : a ≤ b
  all : ∀ n, a ≤ n → n ≤ b → C n
  longest : ∀ c d, c ≤ a → b ≤ d → (∀ n, c ≤ n → n ≤ d → C n) → c = a ∧ d = b

theorem covered_iff_spans {n : Int32} : Covered value ranges n ↔ ∃ p ∈ ranges.map (span value), p.1 ≤ n ∧ n ≤ p.2 := by
  simp only [mem_map, exists_exists_and_eq_and]
  rfl

namespace IsExactMerge

section

variable (h : IsExactMerge value ranges out)

include h

/-- Of two merged ranges a number that is not covered lies between them, or they are one. -/
theorem eq_or_between (hr : r ∈ out) (hr' : r' ∈ out) : r = r' ∨ ∃ n, ¬ Covered value ranges n ∧
    (value r.last < n ∧ n < value r'.first ∨ value r'.last < n ∧ n < value r.first) := by
  rcases eq_or_of_pairwise h.apart hr hr' with heq | ⟨n, hn, hbetween⟩ | ⟨n, hn, hbetween⟩
  · exact .inl heq
  · exact .inr ⟨n, fun ⟨s, hs, hcovers⟩ => hn s hs hcovers, hbetween⟩
  · exact .inr ⟨n, fun ⟨s, hs, hcovers⟩ => hn s hs hcovers, hbetween.symm⟩

/-- **A stretch of covered numbers lies in one merged range.** -/
theorem eq_of_covers {m m' : Int32} (hr : r ∈ out) (hr' : r' ∈ out) (hm : r.Covers value m)
    (hm' : r'.Covers value m') (hle : m ≤ m') (hall : ∀ n, m ≤ n → n ≤ m' → Covered value ranges n) : r = r' := by
  rcases h.eq_or_between hr hr' with heq | ⟨n, hn, hbetween⟩
  · exact heq
  · simp only [Covers, Int32.le_iff_toInt_le, Int32.lt_iff_toInt_lt] at *
    exact absurd (hall n (by omega) (by omega)) hn

theorem covers_first (hr : r ∈ out) : r.Covers value (value r.first) := ⟨Int32.le_refl _, h.ordered r hr⟩

theorem covers_last (hr : r ∈ out) : r.Covers value (value r.last) := ⟨h.ordered r hr, Int32.le_refl _⟩

/-- **A merged range is a longest run of covered numbers.** -/
theorem isRun (hr : r ∈ out) : IsRun (Covered value ranges) (value r.first) (value r.last) := by
  refine ⟨h.ordered r hr, fun n hfirst hlast => (h.covers_iff n).1 ⟨r, hr, hfirst, hlast⟩, fun c d hc hd hall => ?_⟩
  have hle := Int32.le_trans hc (h.ordered r hr)
  have hcd := Int32.le_trans hle hd
  obtain ⟨s, hs, hsc⟩ := (h.covers_iff c).2 (hall c (Int32.le_refl _) hcd)
  obtain ⟨t, ht, htd⟩ := (h.covers_iff d).2 (hall d hcd (Int32.le_refl _))
  -- the runs on both sides do not leave the range
  obtain rfl : s = r := h.eq_of_covers hs hr hsc (h.covers_last hr) hle fun n hn hn' =>
    hall n hn (Int32.le_trans hn' hd)
  obtain rfl : s = t := h.eq_of_covers hs ht hsc htd hcd hall
  exact ⟨Int32.le_antisymm hc hsc.1, Int32.le_antisymm htd.2 hd⟩

/-- **The spans of the merged ranges are the longest runs of covered numbers.** -/
theorem mem_spans_iff {a b : Int32} : (a, b) ∈ out.map (span value) ↔ IsRun (Covered value ranges) a b := by
  constructor
  · intro hab
    obtain ⟨r, hr, hspan⟩ := mem_map.1 hab
    cases hspan
    exact h.isRun hr
  · intro hrun
    obtain ⟨r, hr, hra⟩ := (h.covers_iff a).2 (hrun.all a (Int32.le_refl _) hrun.le)
    obtain ⟨r', hr', hrb⟩ := (h.covers_iff b).2 (hrun.all b hrun.le (Int32.le_refl _))
    obtain rfl : r = r' := h.eq_of_covers hr hr' hra hrb hrun.le hrun.all
    obtain ⟨rfl, rfl⟩ := hrun.longest _ _ hra.1 hrb.2 (h.isRun hr).all
    exact mem_map_of_mem hr

theorem nodup_spans : (out.map (span value)).Nodup := by
  refine pairwise_map.2 (h.apart.imp_of_mem fun {r r'} hr hr' hbetween hspan => ?_)
  obtain ⟨n, -, hn⟩ := hbetween
  have hle := h.ordered r hr
  have hle' := h.ordered r' hr'
  obtain ⟨hfirst, hlast⟩ := Prod.mk.inj hspan
  rw [hfirst, hlast] at hle hn
  simp only [Int32.le_iff_toInt_le, Int32.lt_iff_toInt_lt] at *
  omega

theorem covered_iff {n : Int32} : Covered value out n ↔ Covered value ranges n := h.covers_iff n

/-- **Ranges that cover the same numbers are merged to the same spans,** up to their order. -/
theorem perm_spans {value' : β → Int32} {ranges' out' : List (Range β)}
    (h' : IsExactMerge value' ranges' out') (hsame : ∀ n, Covered value ranges n ↔ Covered value' ranges' n) :
    (out.map (span value)).Perm (out'.map (span value')) := by
  refine (perm_ext_iff_of_nodup h.nodup_spans h'.nodup_spans).2 fun ⟨a, b⟩ => ?_
  rw [h.mem_spans_iff, h'.mem_spans_iff, funext fun n => propext (hsame n)]

/-- **The merged spans say which numbers are covered.** -/
theorem spans_eq_iff {value' : β → Int32} {ranges' out' : List (Range β)} (h' : IsExactMerge value' ranges' out') :
    {p | p ∈ out.map (span value)} = {p | p ∈ out'.map (span value')} ↔
      ∀ n, Covered value ranges n ↔ Covered value' ranges' n := by
  constructor
  · intro hspans n
    rw [← h.covered_iff, ← h'.covered_iff, covered_iff_spans, covered_iff_spans]
    exact exists_congr fun p => and_congr_left fun _ => Set.ext_iff.1 hspans p
  · intro hsame
    exact Set.ext fun p => (h.perm_spans h' hsame).mem_iff

/-! ### There is one exact merge -/

/-- Merged ranges with one span have the same endpoints: these are endpoints of ranges that the span determines. -/
theorem eq_of_span (h' : IsExactMerge value ranges out') (hr : r ∈ out)
    (hr' : r' ∈ out') (hspan : r.span value = r'.span value) : r = r' := by
  obtain ⟨hfirst, hlast⟩ := Prod.mk.inj hspan
  obtain ⟨i, s, hi, hs, hsr⟩ := h.first r hr
  obtain ⟨i', s', hi', hs', hsr'⟩ := h'.first r' hr'
  obtain ⟨j, t, hj, ht, htr⟩ := h.last r hr
  obtain ⟨j', t', hj', ht', htr'⟩ := h'.last r' hr'
  rw [hfirst] at hi
  rw [hlast] at hj
  obtain rfl := hi.unique hi'
  obtain rfl := hj.unique hj'
  cases hs.symm.trans hs'
  cases ht.symm.trans ht'
  cases r
  cases r'
  exact congrArg₂ Range.mk (hsr.symm.trans hsr') (htr.symm.trans htr')

theorem subset (h' : IsExactMerge value ranges out') : out ⊆ out' := by
  intro r hr
  obtain ⟨r', hr', hspan⟩ := mem_map.1 (h'.mem_spans_iff.2 (h.isRun hr))
  rw [h.eq_of_span h' hr hr' hspan.symm]
  exact hr'

/-- **Ranges have one exact merge at most.** -/
theorem unique (h' : IsExactMerge value ranges out') : out = out' := by
  have hperm : out.Perm out' :=
    (perm_ext_iff_of_nodup (h.nodup_spans.of_map _) (h'.nodup_spans.of_map _)).2 fun r =>
      ⟨fun hr => h.subset h' hr, fun hr => h'.subset h hr⟩
  refine hperm.eq_of_pairwise (fun r r' _ _ hbefore hbehind => ?_) h.order h'.order
  obtain ⟨i, j, hi, hj, hij⟩ := hbefore
  obtain ⟨j', i', hj', hi', hji⟩ := hbehind
  obtain rfl := hi.unique hi'
  obtain rfl := hj.unique hj'
  exact absurd hij (Nat.lt_asymm hji)

end

/-! ### Merged ranges are merged -/

section

variable (h : IsExactMerge value ranges out) {i j : Nat} {s t : Range α} {n : Int32}

include h

theorem index_unique (hs : out[i]? = some s) (ht : out[j]? = some t) (hsn : s.Covers value n)
    (htn : t.Covers value n) : i = j := by
  have hcovered := h.covered_iff.1 ⟨s, mem_of_getElem? hs, hsn⟩
  have heq : s = t := h.eq_of_covers (mem_of_getElem? hs) (mem_of_getElem? ht) hsn htn (Int32.le_refl n)
    fun m hm hm' => Int32.le_antisymm hm hm' ▸ hcovered
  exact (getElem?_inj (List.getElem?_eq_some_iff.1 hs).1 (h.nodup_spans.of_map _)).1 (hs.trans (heq ▸ ht.symm))

theorem isLeast_absorbs_self (hs : out[i]? = some s) : IsLeast {k | s.Absorbs value out k} i := by
  refine ⟨⟨s, hs, Int32.le_refl _, Int32.le_refl _⟩, ?_⟩
  rintro k ⟨t, ht, hfirst, hlast⟩
  have hle := h.ordered t (mem_of_getElem? ht)
  exact Nat.le_of_eq (h.index_unique hs ht ⟨hfirst, Int32.le_trans hle hlast⟩ ⟨Int32.le_refl _, hle⟩)

/-- **Merged ranges are an exact merge of themselves.** -/
theorem self : IsExactMerge value out out := by
  have hcovered : ∀ n, (∃ s ∈ out, s.Covers value n) ↔ Covered value ranges n := fun n => h.covered_iff
  refine ⟨fun _ => Iff.rfl, h.ordered, h.apart.imp ?_, fun other hother => ?_, ?_, fun r hr => ?_, fun r hr => ?_⟩
  · rintro r r' ⟨n, hn, hbetween⟩
    refine ⟨n, fun s hs hcovers => ?_, hbetween⟩
    obtain ⟨t, ht, htn⟩ := (hcovered n).1 ⟨s, hs, hcovers⟩
    exact hn t ht htn
  · exact h.shortest other fun n => (hother n).trans (hcovered n)
  · refine pairwise_iff_getElem.2 fun i j hi hj hij => ?_
    exact ⟨i, j, h.isLeast_absorbs_self (getElem?_eq_getElem hi),
      h.isLeast_absorbs_self (getElem?_eq_getElem hj), hij⟩
  · obtain ⟨i, hi⟩ := mem_iff_getElem?.1 hr
    refine ⟨i, r, ⟨⟨r, hi, rfl⟩, ?_⟩, hi, rfl⟩
    rintro k ⟨t, ht, hfirst⟩
    exact Nat.le_of_eq (h.index_unique hi ht (hfirst ▸ h.covers_first hr) (h.covers_first (mem_of_getElem? ht)))
  · obtain ⟨i, hi⟩ := mem_iff_getElem?.1 hr
    refine ⟨i, r, ⟨⟨r, hi, rfl⟩, ?_⟩, hi, rfl⟩
    rintro k ⟨t, ht, hlast⟩
    exact Nat.le_of_eq (h.index_unique ht hi (h.covers_last (mem_of_getElem? ht)) (hlast ▸ h.covers_last hr))

theorem endpoints_subset : endpoints out ⊆ endpoints ranges := by
  have hmem := forall_mem_endpoints.1 fun a (ha : a ∈ endpoints ranges) => ha
  refine forall_mem_endpoints.2 fun r hr => ⟨?_, ?_⟩
  · obtain ⟨i, s, -, hs, hfirst⟩ := h.first r hr
    exact hfirst ▸ (hmem s (mem_of_getElem? hs)).1
  · obtain ⟨i, s, -, hs, hlast⟩ := h.last r hr
    exact hlast ▸ (hmem s (mem_of_getElem? hs)).2

end

end IsExactMerge
end Range

namespace Graph

open Range (Covered span endpoints IsExactMerge)

variable {g : Graph} {ranges out : List (Range Ref)} {i : NodeId} {s : CharacterSet Ref}

/-! ### Ranges that can be merged -/

namespace AreMergeable

section

variable (h : g.AreMergeable ranges)

include h

theorem of_mem_iff {ranges' : List (Range Ref)} (hmem : ∀ r, r ∈ ranges' ↔ r ∈ ranges) : g.AreMergeable ranges' := by
  have hsubset : endpoints ranges' ⊆ endpoints ranges := Range.forall_mem_endpoints.2 fun r hr =>
    Range.forall_mem_endpoints.1 (fun a ha => ha) r ((hmem r).1 hr)
  exact ⟨fun a ha => h.characters a (hsubset ha), fun r hr => h.ordered r ((hmem r).1 hr),
    fun a ha b hb => h.near a (hsubset ha) b (hsubset hb)⟩

theorem of_isExactMerge (hout : IsExactMerge g.number ranges out) : g.AreMergeable out :=
  ⟨fun a ha => h.characters a (hout.endpoints_subset ha), hout.ordered,
    fun a ha b hb => h.near a (hout.endpoints_subset ha) b (hout.endpoints_subset hb)⟩

/-- **Merging merged ranges changes nothing.** -/
theorem merge_merged (hout : IsExactMerge g.number ranges out) : g.mergeRanges out = .ok out := by
  obtain ⟨out', hout', hexact⟩ := (h.of_isExactMerge hout).exists_merged
  rw [hout', hexact.unique hout.self]

/-- Ranges in another order, or some of them twice, are merged to the same spans. -/
theorem perm_of_mem_iff {ranges' : List (Range Ref)}
    (hout : IsExactMerge g.number ranges out) (hmem : ∀ r, r ∈ ranges' ↔ r ∈ ranges) :
    ∃ out', g.mergeRanges ranges' = .ok out' ∧ (out.map (span g.number)).Perm (out'.map (span g.number)) := by
  obtain ⟨out', hout', hexact⟩ := (h.of_mem_iff hmem).exists_merged
  refine ⟨out', hout', hout.perm_spans hexact fun n => ?_⟩
  exact exists_congr fun r => and_congr_left fun _ => (hmem r).symm

end

end AreMergeable

/-! ### Merging the ranges of a set -/

theorem put_put (g : Graph) (i : NodeId) (m n : Node) : (g.put i m).put i n = g.put i n := by
  simp [put]

section

variable (hn : g.node? i = some (.set s)) (s' : CharacterSet Ref)

include hn

/-- A set holds no character, so changing it changes no endpoint. -/
theorem character?_put_set (r : Ref) : (g.put i (.set s')).character? r = g.character? r := by
  cases r with
  | none => rfl
  | some j =>
    rcases Nat.decEq i j with hij | rfl
    · simp only [character?, deref?, Option.bind_some, node?_put_of_ne (.set s') hij]
    · simp only [character?, deref?, Option.bind_some, node?_put_self (.set s') hn, hn]

theorem number_put_set : (g.put i (.set s')).number = g.number := by
  funext r
  rw [number, number, character?_put_set hn]

theorem mergeRanges_put_set (ranges : List (Range Ref)) :
    (g.put i (.set s')).mergeRanges ranges = g.mergeRanges ranges := by
  have hendpoint : (g.put i (.set s')).endpoint? = g.endpoint? := by
    funext r
    simp only [endpoint?, character?_put_set hn]
  rw [mergeRanges, mergeRanges, hendpoint]

/-- Merging the ranges of a set puts the merged ranges in their places. -/
theorem edits_mergeRanges {included subtracted : List (Range Ref)} (hincluded : g.mergeRanges s.ranges = .ok included)
    (hsubtracted : g.mergeRanges s.subtractedRanges = .ok subtracted) : g.edits i Edit.mergeRanges =
      (g.put i (.set { s with ranges := included, subtractedRanges := subtracted }), none) := by
  have hfuse : g.edit i .fuseRanges = .ok (g.put i (.set { s with ranges := included })) := by
    rw [edit, hn]
    simp only [Edit.apply, hincluded]
    rfl
  have hfuse' : (g.put i (.set { s with ranges := included })).edit i .fuseSubtracted =
      .ok (g.put i (.set { s with ranges := included, subtractedRanges := subtracted })) := by
    rw [edit, node?_put_self _ hn]
    simp only [Edit.apply, mergeRanges_put_set hn, hsubtracted]
    exact congrArg Except.ok (put_put g i _ _)
  simp only [Edit.mergeRanges, edits, hfuse, hfuse']

end

/-- What merging the ranges of a set comes to: a set with other ranges, which cover the same numbers and are not
changed by merging again. -/
theorem exists_merged_set (hn : g.node? i = some (.set s)) (hincluded : g.AreMergeable s.ranges)
    (hsubtracted : g.AreMergeable s.subtractedRanges) :
    ∃ h included subtracted, g.edits i Edit.mergeRanges = (h, none) ∧
      h = g.put i (.set { s with ranges := included, subtractedRanges := subtracted }) ∧
      (∀ n, Covered h.number included n ↔ Covered g.number s.ranges n) ∧
      (∀ n, Covered h.number subtracted n ↔ Covered g.number s.subtractedRanges n) ∧
      h.edits i Edit.mergeRanges = (h, none) := by
  obtain ⟨included, hi, hiexact⟩ := hincluded.exists_merged
  obtain ⟨subtracted, hs, hsexact⟩ := hsubtracted.exists_merged
  have hnumber := number_put_set hn { s with ranges := included, subtractedRanges := subtracted }
  refine ⟨_, included, subtracted, edits_mergeRanges hn hi hs, rfl, fun n => ?_, fun n => ?_, ?_⟩
  · rw [hnumber, hiexact.covered_iff]
  · rw [hnumber, hsexact.covered_iff]
  · have hiagain := hincluded.merge_merged hiexact
    have hsagain := hsubtracted.merge_merged hsexact
    rw [← mergeRanges_put_set hn { s with ranges := included, subtractedRanges := subtracted }] at hiagain hsagain
    rw [edits_mergeRanges (node?_put_self _ hn) hiagain hsagain]
    exact congrArg (·, none) (put_put g i _ _)

/-- **Merged ranges are a normal form.** Let the endpoints of the ranges `x`, and of the ranges `y` of any graph, be
characters whose numbers differ by less than `2 ^ 31`, and no range inverted. Then both are merged. Merging the
result again gives the same ranges, with the same nodes and in the same order. The results have the same spans
exactly if `x` and `y` cover the same numbers, and a list with the ranges of `x` in any order, and each of them any
number of times, is merged to the spans of `x` in some order. Merging the ranges of a set, of those that it includes
and of those that it subtracts, changes nothing but these ranges, keeps the numbers that they cover, and changes
nothing when it is done again. -/
theorem mergeRanges_normal_form (g g' : Graph) {x y : List (Range Ref)} (hx : g.AreMergeable x)
    (hy : g'.AreMergeable y) :
    ∃ out out', g.mergeRanges x = .ok out ∧ g'.mergeRanges y = .ok out' ∧ g.mergeRanges out = .ok out ∧
      ({p | p ∈ out.map (span g.number)} = {p | p ∈ out'.map (span g'.number)} ↔
        ∀ n, Covered g.number x n ↔ Covered g'.number y n) ∧
      (∀ z, (∀ r, r ∈ z ↔ r ∈ x) → ∃ out'', g.mergeRanges z = .ok out'' ∧
        (out.map (span g.number)).Perm (out''.map (span g.number))) ∧
      ∀ i s, g.node? i = some (.set s) → g.AreMergeable s.ranges → g.AreMergeable s.subtractedRanges →
        ∃ h included subtracted, g.edits i Edit.mergeRanges = (h, none) ∧
          h = g.put i (.set { s with ranges := included, subtractedRanges := subtracted }) ∧
          (∀ n, Covered h.number included n ↔ Covered g.number s.ranges n) ∧
          (∀ n, Covered h.number subtracted n ↔ Covered g.number s.subtractedRanges n) ∧
          h.edits i Edit.mergeRanges = (h, none) := by
  obtain ⟨out, hout, hexact⟩ := hx.exists_merged
  obtain ⟨out', hout', hexact'⟩ := hy.exists_merged
  exact ⟨out, out', hout, hout', hx.merge_merged hexact, hexact.spans_eq_iff hexact',
    fun z hz => hx.perm_of_mem_iff hexact hz,
    fun i s hn hincluded hsubtracted => exists_merged_set hn hincluded hsubtracted⟩

/-- The set with the ranges `m-p`, `a-f`, `q-z` and `\x61-c`, without `c-f` and `a-c`. -/
def letterSet : CharacterSet Ref where
  ranges := [⟨some 0, some 1⟩, ⟨some 2, some 3⟩, ⟨some 4, some 5⟩, ⟨some 6, some 7⟩]
  subtractedRanges := [⟨some 7, some 3⟩, ⟨some 2, some 7⟩]

/-- The letters with this set as the last node. -/
def letterSets : Graph := ⟨endpointLetters.nodes.push (.set letterSet)⟩

/-- `\x61-f` and `m-z` cover what the set includes. -/
theorem mergeRanges_normal_form_letterSets :
    letterSets.mergeRanges letterSet.ranges = .ok [⟨some 0, some 5⟩, ⟨some 2, some 3⟩] ∧
      letterSets.mergeRanges [⟨some 0, some 5⟩, ⟨some 2, some 3⟩] = .ok [⟨some 0, some 5⟩, ⟨some 2, some 3⟩] ∧
      (∀ n, Covered letterSets.number letterSet.ranges n ↔
        Covered endpointLetters.number [⟨some 6, some 3⟩, ⟨some 0, some 5⟩] n) ∧
      ∃ h included subtracted, letterSets.edits 8 Edit.mergeRanges = (h, none) ∧
        h = letterSets.put 8 (.set { letterSet with ranges := included, subtractedRanges := subtracted }) ∧
        (∀ n, Covered h.number included n ↔ Covered letterSets.number letterSet.ranges n) ∧
        (∀ n, Covered h.number subtracted n ↔ Covered letterSets.number letterSet.subtractedRanges n) ∧
        h.edits 8 Edit.mergeRanges = (h, none) := by
  have hmergeable : letterSets.AreMergeable letterSet.ranges := ⟨by decide, by decide, by decide⟩
  have hmerged : letterSets.mergeRanges letterSet.ranges = .ok [⟨some 0, some 5⟩, ⟨some 2, some 3⟩] :=
    mergeRanges_endpointLetters
  have hmerged' : endpointLetters.mergeRanges [⟨some 6, some 3⟩, ⟨some 0, some 5⟩] =
      .ok [⟨some 6, some 3⟩, ⟨some 0, some 5⟩] := by
    simp [mergeRanges, endpointLetters, endpoint?, character?, deref?, node?, Range.mapM?, Range.merge, Range.marks,
      mergeSort, Range.Mark.le, Range.sweep, Range.touches, Character.value]
  obtain ⟨out, out', hout, hout', hagain, hspans, -, hset⟩ := mergeRanges_normal_form letterSets endpointLetters
    hmergeable (y := [⟨some 6, some 3⟩, ⟨some 0, some 5⟩]) ⟨by decide, by decide, by decide⟩
  cases hmerged.symm.trans hout
  cases hmerged'.symm.trans hout'
  refine ⟨hmerged, hagain, hspans.1 (Set.ext fun p => ?_), hset 8 letterSet rfl hmergeable
    ⟨by decide, by decide, by decide⟩⟩
  have hspan : ∀ q q' : Int32 × Int32, p ∈ [q, q'] ↔ p ∈ [q', q] := by simp [or_comm]
  exact hspan _ _

end Graph
end RegexBuilder
