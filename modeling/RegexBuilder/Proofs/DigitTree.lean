/-
# The trees of numeric ranges

The tree of a numeric range is made of literals, digits, ranges of digits that are not inverted, sequences,
alternations and repetitions with sound bounds (`Tree.IsDigital`). That the ranges are not inverted is where the
order of the bounds counts: two numerals of one length are compared by their first digits that differ.
-/

import Mathlib.Algebra.Group.Nat.Defs
import RegexBuilder.Pattern.NumericRange
import RegexBuilder.Pattern.Rules
import RegexBuilder.Proofs.Grafting

namespace RegexBuilder

open List

/-! ### Digital trees -/

/-- A tree of literals, digits and ranges of digits in order, with sound bounds. -/
inductive Tree.IsDigital : Tree → Prop where
  | literal (text : Text) : IsDigital (.literal text)
  | digit : IsDigital NumericRange.anyDigit
  | char (n : Int32) : IsDigital (.char n)
  | digits {a b : Int32} (h : ¬ b < a) :
    IsDigital (.set { ranges := [⟨.fresh (.character (.plain a)), .fresh (.character (.plain b))⟩] })
  | concat {ts : List Tree} (h : ∀ t ∈ ts, IsDigital t) : IsDigital (.concat ts)
  | alternation {ts : List Tree} (h : ∀ t ∈ ts, IsDigital t) : IsDigital (.alternation ts)
  | quantified {b : Bounds} (hb : b.objection? = none) {t : Tree} (h : IsDigital t) :
    IsDigital (.quantified b t)

namespace Tree.IsDigital

variable {t : Tree}

theorem links_eq_nil (skips : Bounds → Bool) (h : t.IsDigital) : t.links skips = [] := by
  induction h with
  | literal | digit | char | digits => rfl
  | concat _ ih | alternation _ ih => rw [links, linksAll_eq_flatMap, flatMap_eq_nil_iff.2 ih]
  | quantified hb _ ih => rw [links, ih, ite_self]

theorem isProper (D : Text → Prop) (h : t.IsDigital) : t.IsProper D := by
  induction h with
  | literal | char => trivial
  | digit => exact fun code h => by cases h
  | digits =>
    refine ⟨nofun, fun r hr => ?_⟩
    obtain rfl := mem_singleton.1 hr
    exact ⟨⟨_, rfl⟩, ⟨_, rfl⟩⟩
  | concat _ ih | alternation _ ih => exact allProper_iff.2 ih
  | quantified hb _ ih => exact ih

theorem graft_eq (σ : Ref → Tree) (h : t.IsDigital) : t.graft σ = t := by
  induction h with
  | literal | digit | char | digits => rfl
  | @concat ts _ ih | @alternation ts _ ih => rw [graft, graftAll_eq_map, map_congr_left ih, map_id']
  | quantified hb _ ih => rw [graft, ih]

end Tree.IsDigital

/-! ### Digits -/

namespace NumericRange

/-- All are digits. -/
def AreDigits (ds : Digits) : Prop := ∀ d ∈ ds, d ≤ 9

/-- The number with the digits. -/
def value : Digits → Nat
  | [] => 0
  | d :: ds => d * 10 ^ ds.length + value ds

variable {n m a b d e : Nat} {ds es lo hi rest loRest hiRest : Digits} {t : Tree} {min max : Int}

/-- The digits before others count by the place at which they end. -/
theorem value_append (ds es : Digits) : value (ds ++ es) = value ds * 10 ^ es.length + value es := by
  induction ds with
  | nil => simp [value]
  | cons d ds ih =>
    rw [cons_append, value, value, ih, length_append, Nat.pow_add, Nat.add_mul, Nat.mul_assoc, Nat.add_assoc]

/-- A numeral is less than a one with as many zeros. -/
theorem value_lt (h : AreDigits ds) : value ds < 10 ^ ds.length := by
  induction ds with
  | nil => exact Nat.one_pos
  | cons d ds ih =>
    obtain ⟨hd, hds⟩ := forall_mem_cons.1 h
    have hmul : d * 10 ^ ds.length ≤ 9 * 10 ^ ds.length := Nat.mul_le_mul_right _ hd
    have hlt := ih hds
    rw [value, length_cons, Nat.pow_succ]
    omega

theorem value_replicate_zero (k : Nat) : value (List.replicate k 0) = 0 := by
  induction k with
  | zero => rfl
  | succ k ih => rw [replicate_succ, value, ih, Nat.zero_mul]

/-- Nines are one less than a one with as many zeros. -/
theorem value_replicate_nine (k : Nat) : value (List.replicate k 9) + 1 = 10 ^ k := by
  induction k with
  | zero => rfl
  | succ =>
    rw [replicate_succ, value, length_replicate, Nat.pow_succ]
    omega

theorem areDigits_replicate (k : Nat) (hd : d ≤ 9) : AreDigits (List.replicate k d) :=
  fun _ he => eq_of_mem_replicate he ▸ hd

/-- **Numerals of one length are compared digit by digit.** -/
theorem value_cons_le_cons (hlength : ds.length = es.length) (hds : AreDigits ds) (hes : AreDigits es) :
    value (d :: ds) ≤ value (e :: es) ↔ d < e ∨ d = e ∧ value ds ≤ value es := by
  have hlt := value_lt hds
  have hlt' := value_lt hes
  rw [value, value, hlength]
  rw [hlength] at hlt
  rcases Nat.lt_trichotomy d e with h | rfl | h
  · have hmul : (d + 1) * 10 ^ es.length ≤ e * 10 ^ es.length := Nat.mul_le_mul_right _ h
    rw [Nat.add_mul, Nat.one_mul] at hmul
    exact iff_of_true (by omega) (.inl h)
  · omega
  · have hmul : (e + 1) * 10 ^ es.length ≤ d * 10 ^ es.length := Nat.mul_le_mul_right _ h
    rw [Nat.add_mul, Nat.one_mul] at hmul
    exact iff_of_false (by omega) (by omega)

/-- Numerals of one length and one value are the same. -/
theorem eq_of_value_eq (hlength : ds.length = es.length) (hds : AreDigits ds) (hes : AreDigits es)
    (h : value ds = value es) : ds = es := by
  induction ds generalizing es with
  | nil => exact (eq_nil_of_length_eq_zero hlength.symm).symm
  | cons d ds ih =>
    cases es with
    | nil => cases hlength
    | cons e es =>
      have hrest : ds.length = es.length := Nat.succ.inj hlength
      obtain ⟨-, hds⟩ := forall_mem_cons.1 hds
      obtain ⟨-, hes⟩ := forall_mem_cons.1 hes
      have hle := (value_cons_le_cons hrest hds hes).1 (Nat.le_of_eq h)
      have hge := (value_cons_le_cons hrest.symm hes hds).1 (Nat.le_of_eq h.symm)
      have hfirst : d = e := by omega
      have htail : value ds = value es := by omega
      rw [hfirst, ih hrest hds hes htail]

/-! ### Numbers -/

/-- The last digit of a number is its remainder by ten. -/
theorem digitsOf_eq (n : Nat) : digitsOf n = if n < 10 then [n] else digitsOf (n / 10) ++ [n % 10] := by
  have hdigit : ∀ d < 10, (Nat.digitChar d).toNat - 48 = d := by decide
  unfold digitsOf
  rw [Nat.toDigits_eq_if (by decide)]
  split
  · next hn => rw [map_singleton, hdigit n hn]
  · rw [map_append, map_singleton, hdigit _ (Nat.mod_lt n (by decide))]

theorem areDigits_digitsOf (n : Nat) : AreDigits (digitsOf n) := by
  induction n using Nat.strongRecOn with
  | _ n ih =>
    rw [digitsOf_eq]
    split
    · next hn => exact forall_mem_singleton.2 (Nat.le_of_lt_succ hn)
    · next hn =>
      refine forall_mem_append.2 ⟨ih _ (by omega), forall_mem_singleton.2 ?_⟩
      omega

/-- A number is the value of its digits. -/
theorem value_digitsOf (n : Nat) : value (digitsOf n) = n := by
  induction n using Nat.strongRecOn with
  | _ n ih =>
    rw [digitsOf_eq]
    split
    · simp [value]
    · rw [value_append, ih _ (by omega)]
      simp only [value, length_singleton, length_nil, Nat.pow_one, Nat.pow_zero]
      omega

/-- The digits of a number are counted by the powers of ten. -/
theorem length_digitsOf_le_iff {w : Nat} (hw : 0 < w) : (digitsOf n).length ≤ w ↔ n < 10 ^ w := by
  rw [digitsOf, length_map, Nat.length_toDigits_le_iff (by decide) hw]

theorem length_digitsOf_pos (n : Nat) : 0 < (digitsOf n).length := by
  rw [digitsOf, length_map]
  exact length_pos_iff.2 Nat.toDigits_ne_nil

theorem length_digitsOf_le (h : m ≤ n) : (digitsOf m).length ≤ (digitsOf n).length :=
  (length_digitsOf_le_iff (length_digitsOf_pos n)).2
    (Nat.lt_of_le_of_lt h ((length_digitsOf_le_iff (length_digitsOf_pos n)).1 (Nat.le_refl _)))

/-- A numeral with the length of the number that is its value is the numeral of that number. -/
theorem eq_digitsOf (hds : AreDigits ds) (hlength : ds.length = (digitsOf (value ds)).length) :
    ds = digitsOf (value ds) :=
  eq_of_value_eq hlength hds (areDigits_digitsOf _) (value_digitsOf _).symm

theorem length_digitsOf_value_le (hds : AreDigits ds) (hne : ds ≠ []) : (digitsOf (value ds)).length ≤ ds.length :=
  (length_digitsOf_le_iff (length_pos_iff.2 hne)).2 (value_lt hds)

/-- A numeral without a zero in front is the numeral of its value. -/
theorem digitsOf_value_cons (h : AreDigits (d :: es)) (hd : 0 < d) : digitsOf (value (d :: es)) = d :: es := by
  have hvalue : 10 ^ es.length ≤ value (d :: es) := Nat.le_trans (Nat.le_mul_of_pos_left _ hd) (Nat.le_add_right _ _)
  have hpos := length_digitsOf_pos (value (d :: es))
  have hle := length_digitsOf_value_le h (cons_ne_nil _ _)
  have hlength : (d :: es).length = (digitsOf (value (d :: es))).length := by
    by_contra hne
    rw [length_cons] at hle hne
    have hshort := (length_digitsOf_le_iff (n := value (d :: es)) (w := es.length) (by omega)).1 (by omega)
    omega
  exact (eq_digitsOf h hlength).symm

/-- **The numbers with more digits than `m` follow the greatest one with as many,** which is written in nines. -/
theorem byLength_succ (p : Padding) (width gap : Nat) (h : (digitsOf m).length + (gap + 1) = (digitsOf n).length) :
    ∃ top, m ≤ top ∧ top < n ∧ (digitsOf m).length = (digitsOf top).length ∧
      (digitsOf (top + 1)).length + gap = (digitsOf n).length ∧
      byLength p width (digitsOf n) (gap + 1) (digitsOf m) =
        padded p (width - (digitsOf top).length) (sameLength (digitsOf m) (digitsOf top)) ::
          byLength p width (digitsOf n) gap (digitsOf (top + 1)) := by
  have hpos := length_digitsOf_pos m
  generalize hk : (digitsOf m).length = k at *
  obtain ⟨j, rfl⟩ := Nat.exists_eq_add_one_of_ne_zero (Nat.ne_of_gt hpos)
  have hnines := value_replicate_nine (j + 1)
  have hm := (length_digitsOf_le_iff hpos).1 (Nat.le_of_eq hk)
  have hn : 10 ^ (j + 1) ≤ n := by
    by_contra hnot
    have hshort := (length_digitsOf_le_iff hpos).2 (Nat.lt_of_not_le hnot)
    omega
  have htop : digitsOf (value (List.replicate (j + 1) 9)) = List.replicate (j + 1) 9 :=
    digitsOf_value_cons (areDigits_replicate (j + 1) (Nat.le_refl 9)) (by decide)
  have hnext : digitsOf (10 ^ (j + 1)) = 1 :: List.replicate (j + 1) 0 := by
    have hones : AreDigits (1 :: List.replicate (j + 1) 0) :=
      forall_mem_cons.2 ⟨by decide, areDigits_replicate _ (Nat.zero_le 9)⟩
    have hdigits := digitsOf_value_cons hones Nat.one_pos
    rwa [value, value_replicate_zero, length_replicate, Nat.one_mul, Nat.add_zero] at hdigits
  refine ⟨value (List.replicate (j + 1) 9), by omega, by omega, ?_, ?_, ?_⟩
  · rw [htop, length_replicate]
  · rw [hnines, hnext, length_cons, length_replicate]
    omega
  · rw [hnines, hnext, htop, byLength, hk, length_replicate]

/-- What holds of the numerals of each length holds of all that an interval is split into. -/
theorem forall_mem_byLength {P : Tree → Prop} (p : Padding) (width gap : Nat)
    (hP : ∀ zeros {m n : Nat}, m ≤ n → (digitsOf m).length = (digitsOf n).length →
      P (padded p zeros (sameLength (digitsOf m) (digitsOf n))))
    (hle : m ≤ n) (hlength : (digitsOf m).length + gap = (digitsOf n).length) :
    ∀ t ∈ byLength p width (digitsOf n) gap (digitsOf m), P t := by
  induction gap generalizing m with
  | zero => exact forall_mem_singleton.2 (hP _ hle hlength)
  | succ gap ih =>
    obtain ⟨top, hm, hn, htop, hrest, heq⟩ := byLength_succ p width gap hlength
    rw [heq]
    exact forall_mem_cons.2 ⟨hP _ hm htop, ih hn hrest⟩

/-! ### Digital pieces -/

open RegexBuilder.Tree (IsDigital)

/-- A choice of digits in order. -/
theorem digitRange_isDigital {lo hi : Int} (hlo : 0 ≤ lo) (hle : lo ≤ hi) (hhi : hi ≤ 9) :
    (digitRange lo hi).IsDigital := by
  unfold digitRange
  split
  · exact .digit
  · refine .digits ?_
    rw [Int32.lt_iff_toInt_lt, Int32.toInt_ofInt_of_le (by omega) (by omega),
      Int32.toInt_ofInt_of_le (by omega) (by omega)]
    omega

/-- Bounds in order are sound. -/
theorem repeated_isDigital (ht : t.IsDigital) (hmin : 0 ≤ min) (hmax : min ≤ max) :
    (Tree.repeated t min max).IsDigital := by
  have hmax' : ¬ max < unbounded := by unfold unbounded; omega
  refine .quantified ?_ ht
  unfold Bounds.objection?
  rw [if_neg (Int.not_lt.2 hmin), if_neg hmax', if_neg fun h => Int.not_lt.2 hmax h.2]

theorem pair_isDigital {u : Tree} (ht : t.IsDigital) (hu : u.IsDigital) : (Tree.concat [t, u]).IsDigital :=
  .concat (forall_mem_cons.2 ⟨ht, forall_mem_singleton.2 hu⟩)

theorem digitPattern_isDigital (lead : Text) {lo hi : Int} (trailing : Int) (hlo : 0 ≤ lo)
    (hle : lo ≤ hi) (hhi : hi ≤ 9) : (digitPattern lead lo hi trailing).IsDigital := by
  refine .concat fun t ht => ?_
  rcases mem_append.1 ht with ht | ht
  · rcases mem_append.1 ht with ht | ht
    · split at ht
      · cases ht
      · obtain rfl := mem_singleton.1 ht
        exact .literal lead
    · obtain rfl := mem_singleton.1 ht
      exact digitRange_isDigital hlo hle hhi
  · obtain ⟨htrailing, ht⟩ := mem_ite_nil_right.1 ht
    obtain rfl := mem_singleton.1 ht
    exact repeated_isDigital .digit (Int.le_of_lt htrailing) (Int.le_refl _)

section

variable {P : Tree → Prop}
  (hP : ∀ w {lo hi : Int} k, 0 ≤ lo → lo ≤ hi → hi ≤ 9 → P (digitPattern w lo hi k))

include hP

/-- What holds of the patterns with one range of digits holds of the numerals up from, and down to, given digits. -/
theorem forall_mem_upFrom (lead : Digits) (h : AreDigits rest) :
    (∀ t ∈ upFrom lead rest, P t) ∧ ∀ t ∈ downTo lead rest, P t := by
  induction rest generalizing lead with
  | nil => exact ⟨nofun, nofun⟩
  | cons d rest ih =>
    obtain ⟨hd, hrest⟩ := forall_mem_cons.1 h
    obtain ⟨hup, hdown⟩ := ih (lead ++ [d]) hrest
    rw [upFrom, downTo]
    constructor
    · split
      · exact forall_mem_singleton.2 (hP _ _ (by omega) (by omega) (by omega))
      · refine forall_mem_append.2 ⟨hup, fun t ht => ?_⟩
        obtain ⟨hlt, ht⟩ := mem_ite_nil_right.1 ht
        exact mem_singleton.1 ht ▸ hP _ _ (by omega) (by omega) (by omega)
    · split
      · exact forall_mem_singleton.2 (hP _ _ (by omega) (by omega) (by omega))
      · refine forall_mem_append.2 ⟨fun t ht => ?_, hdown⟩
        obtain ⟨hlt, ht⟩ := mem_ite_nil_right.1 ht
        exact mem_singleton.1 ht ▸ hP _ _ (by omega) (by omega) (by omega)

/-- What holds of the patterns with one range of digits holds of the pieces of an interval. -/
theorem forall_mem_pieces {first last : Nat} (hlast : last ≤ 9) (hlo : AreDigits loRest) (hhi : AreDigits hiRest) :
    ∀ t ∈ pieces first loRest last hiRest, P t := by
  refine forall_mem_append.2 ⟨forall_mem_append.2 ⟨?_, fun t ht => ?_⟩, ?_⟩
  · split
    · exact nofun
    · exact (forall_mem_upFrom hP _ hlo).1
  · obtain ⟨hle, ht⟩ := mem_ite_nil_right.1 ht
    obtain rfl := mem_singleton.1 ht
    refine hP _ _ ?_ hle ?_
    · split <;> omega
    · split <;> omega
  · split
    · exact nofun
    · exact (forall_mem_upFrom hP _ hhi).2

end

theorem oneOf_isDigital {ts : List Tree} (h : ∀ t ∈ ts, t.IsDigital) : (oneOf ts).IsDigital := by
  unfold oneOf
  split
  · exact h _ (mem_singleton.2 rfl)
  · exact .alternation h

theorem diverging_isDigital (hab : a < b) (hb : b ≤ 9) (hlo : AreDigits lo) (hhi : AreDigits hi) :
    (diverging (a :: lo) (b :: hi)).IsDigital := by
  unfold diverging
  split
  · next heq heq' =>
    cases heq
    cases heq'
    exact digitRange_isDigital (by omega) (by omega) (by omega)
  · next heq heq' =>
    cases heq
    cases heq'
    exact oneOf_isDigital (forall_mem_pieces digitPattern_isDigital hb hlo hhi)
  · exact .literal []

/-- Behind their common lead, two numerals begin with different digits. -/
theorem splitCommon_spec {lead : Digits} (h : splitCommon lo hi = (lead, loRest, hiRest)) :
    lo = lead ++ loRest ∧ hi = lead ++ hiRest ∧ ∀ a ∈ loRest.head?, ∀ b ∈ hiRest.head?, a ≠ b := by
  induction lo, hi using splitCommon.induct generalizing lead loRest hiRest with
  | case1 lo a hi _ _ _ _ ih =>
    rw [splitCommon, if_pos rfl] at h
    cases h
    obtain ⟨hlo, hhi, hne⟩ := ih rfl
    exact ⟨congrArg (a :: ·) hlo, congrArg (a :: ·) hhi, hne⟩
  | case2 a lo b hi hab =>
    rw [splitCommon, if_neg hab] at h
    cases h
    refine ⟨rfl, rfl, ?_⟩
    rintro _ ⟨⟩ _ ⟨⟩
    exact hab
  | case3 lo hi hnot =>
    rw [splitCommon] at h
    · cases h
      refine ⟨rfl, rfl, fun a ha b hb => ?_⟩
      cases lo with
      | nil => cases ha
      | cons a' lo =>
        cases hi with
        | nil => cases hb
        | cons b' hi => exact (hnot a' lo b' hi rfl rfl).elim
    · exact hnot

/-- **Two numbers of one length** are the same, or their numerals go apart at a digit that is smaller in the smaller
number. -/
theorem sameLength_cases (hle : m ≤ n) (hlength : (digitsOf m).length = (digitsOf n).length) :
    m = n ∧ sameLength (digitsOf m) (digitsOf n) = .literal (numeral (digitsOf n)) ∨
    ∃ lead a b loRest hiRest, digitsOf m = lead ++ a :: loRest ∧ digitsOf n = lead ++ b :: hiRest ∧ a < b ∧ b ≤ 9 ∧
      loRest.length = hiRest.length ∧ AreDigits lead ∧ AreDigits loRest ∧ AreDigits hiRest ∧
      sameLength (digitsOf m) (digitsOf n) = if lead = [] then diverging (a :: loRest) (b :: hiRest)
        else .concat [.literal (numeral lead), diverging (a :: loRest) (b :: hiRest)] := by
  by_cases heq : digitsOf m = digitsOf n
  · refine .inl ⟨?_, by rw [sameLength, if_pos heq, heq]⟩
    rw [← value_digitsOf m, heq, value_digitsOf]
  · refine .inr ?_
    rcases hsplit : splitCommon (digitsOf m) (digitsOf n) with ⟨lead, lo, hi⟩
    obtain ⟨hm, hn, hheads⟩ := splitCommon_spec hsplit
    have hvalue : value (digitsOf m) ≤ value (digitsOf n) := by rwa [value_digitsOf, value_digitsOf]
    have hlo := areDigits_digitsOf m
    have hhi := areDigits_digitsOf n
    rw [hm] at hlo
    rw [hn] at hhi
    obtain ⟨hlead, hlo⟩ := forall_mem_append.1 hlo
    obtain ⟨-, hhi⟩ := forall_mem_append.1 hhi
    rw [hm, hn, length_append, length_append] at hlength
    rw [hm, hn, value_append, value_append, Nat.add_left_cancel hlength] at hvalue
    match lo, hi with
    | [], [] => exact absurd (hm.trans hn.symm) heq
    | [], _ :: _ | _ :: _, [] => cases Nat.add_left_cancel hlength
    | a :: lo, b :: hi =>
      have hrest : lo.length = hi.length := Nat.succ.inj (Nat.add_left_cancel hlength)
      obtain ⟨-, hlo⟩ := forall_mem_cons.1 hlo
      obtain ⟨hb, hhi⟩ := forall_mem_cons.1 hhi
      have hab : a < b := ((value_cons_le_cons hrest hlo hhi).1 (Nat.le_of_add_le_add_left hvalue)).resolve_right
        fun h => hheads a rfl b rfl h.1
      refine ⟨lead, a, b, lo, hi, hm, hn, hab, hb, hrest, hlead, hlo, hhi, ?_⟩
      rw [sameLength, if_neg heq, hsplit]
      cases lead <;> rfl

theorem sameLength_isDigital (hle : m ≤ n) (hlength : (digitsOf m).length = (digitsOf n).length) :
    (sameLength (digitsOf m) (digitsOf n)).IsDigital := by
  obtain ⟨-, heq⟩ | ⟨lead, a, b, lo, hi, -, -, hab, hb, -, -, hlo, hhi, heq⟩ := sameLength_cases hle hlength
  · rw [heq]
    exact .literal _
  · have hrest := diverging_isDigital hab hb hlo hhi
    rw [heq]
    split
    · exact hrest
    · exact pair_isDigital (.literal _) hrest

theorem padded_isDigital (p : Padding) (zeros : Nat) (h : t.IsDigital) : (padded p zeros t).IsDigital := by
  unfold padded
  split
  · exact h
  · split
    · exact pair_isDigital (repeated_isDigital (.char 48) (Int.le_refl 0) (Int.natCast_nonneg zeros)) h
    · exact pair_isDigital (.literal _) h
    · exact h

theorem unsigned_isDigital (p : Padding) (width : Nat) (h : m ≤ n) : (unsigned p width m n).IsDigital := by
  have hlength := length_digitsOf_le h
  refine oneOf_isDigital (forall_mem_byLength p width _ (fun zeros _ _ hle hlength => ?_) h (by omega))
  exact padded_isDigital p zeros (sameLength_isDigital hle hlength)

theorem signed_isDigital (p : Padding) (h : min ≤ max) : (signed p min max).IsDigital := by
  unfold signed
  split
  · exact pair_isDigital (.literal _) (unsigned_isDigital p _ (by omega))
  · refine .alternation (forall_mem_cons.2 ⟨?_, forall_mem_singleton.2 ?_⟩)
    · exact pair_isDigital (.literal _) (unsigned_isDigital p _ (Nat.zero_le _))
    · exact unsigned_isDigital p _ (Nat.zero_le _)
  · exact unsigned_isDigital p _ (Int.ofNat_le.1 h)
  · exact .literal []

end NumericRange

/-- **The tree of a numeric range is digital.** -/
theorem numericRange_isDigital {min max : Int} {p : Padding} {t : Tree}
    (h : numericRange min max p = .ok t) : t.IsDigital := by
  unfold numericRange at h
  split at h
  · cases h
  · next hle =>
    split at h
    · cases h
    · cases h
      exact NumericRange.signed_isDigital p (Int.not_lt.1 hle)

end RegexBuilder
