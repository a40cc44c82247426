/-
# A numeric range matches its interval

The pieces of the tree are put together as the numbers are split, and the proof goes the same way: the language of
each part is `numerals P`, the numerals of the digits with `P`, and numerals of one length are compared digit by digit
(`value_cons_le_cons`).

| part | its numerals |
| --- | --- |
| `digitPattern` | one digit bounded, the digits before it given, those behind it free |
| `upFrom`, `downTo` | a given lead, and behind it at least, or at most, the given digits |
| `sameLength` | of the length of the bounds, and between them |
| `unsigned` | zeros as the padding wants, and a number between the bounds |
-/

import RegexBuilder.Proofs.IntegerDomain
import RegexBuilder.Proofs.TreeLanguage

namespace RegexBuilder

open List

/-- `k` zeros may stand before a numeral that is `zeros` short of the width. -/
def Padding.Fills (p : Padding) (zeros k : ℕ) : Prop :=
  match p with
  | .none | .undeclared _ => k = 0
  | .optional => k ≤ zeros
  | .required => k = zeros

/-- The digits have as many zeros in front as the padding wants: none but for zero itself, some up to the width, or
just the width. -/
def Padding.Admits (p : Padding) (width : ℕ) (ds : NumericRange.Digits) : Prop :=
  match p with
  | .none | .undeclared _ => ds.head? = some 0 → ds = [0]
  | .optional => ds.length ≤ width
  | .required => ds.length = width

instance (p : Padding) (width : ℕ) (ds : NumericRange.Digits) : Decidable (p.Admits width ds) :=
  match p with
  | .none | .undeclared _ => inferInstanceAs (Decidable (ds.head? = some 0 → ds = [0]))
  | .optional => inferInstanceAs (Decidable (ds.length ≤ width))
  | .required => inferInstanceAs (Decidable (ds.length = width))

namespace NumericRange

instance (ds : Digits) : Decidable (AreDigits ds) := inferInstanceAs (Decidable (∀ d ∈ ds, d ≤ 9))

open RegexBuilder.Tree (choiceLanguage sequenceLanguage Divides divides_nil divides_singleton)

variable {P Q : Digits → Prop} {ds es lead rest lo hi : Digits}

/-! ### Numerals of one length -/

variable {d e a b n first last m width : ℕ} {c : Prop} {t : Tree} {ts us : List Tree} {p : Padding} {w : Text}

theorem value_eq_zero_of_all (h : rest.all (· = 0) = true) : value rest = 0 := by
  induction rest with
  | nil => rfl
  | cons d rest ih =>
    simp only [all_cons, Bool.and_eq_true, decide_eq_true_eq] at h
    rw [value, h.1, ih h.2, Nat.zero_mul]

/-- No numeral is above nines of its length. -/
theorem value_le_of_all_nine (h : rest.all (· = 9) = true) (hlength : es.length = rest.length)
    (hes : AreDigits es) : value es ≤ value rest := by
  have hnines : rest = List.replicate rest.length 9 :=
    eq_replicate_of_mem fun d hd => of_decide_eq_true (all_eq_true.1 h d hd)
  have hvalue := value_replicate_nine rest.length
  have hlt := value_lt hes
  rw [← hnines] at hvalue
  rw [hlength] at hlt
  omega

/-- The numeral has the length of the bounds and lies between them. -/
def Between (lo hi ds : Digits) : Prop :=
  ds.length = lo.length ∧ value lo ≤ value ds ∧ value ds ≤ value hi

/-- Whether a numeral lies between two is decided by the first digits or, where these are the same, by the others. -/
theorem between_cons (hlength : lo.length = hi.length) (hlo : AreDigits lo) (hhi : AreDigits hi) (hes : AreDigits es) :
    Between (a :: lo) (b :: hi) (e :: es) ↔ es.length = lo.length ∧
      (a < e ∨ a = e ∧ value lo ≤ value es) ∧ (e < b ∨ e = b ∧ value es ≤ value hi) := by
  unfold Between
  rw [length_cons, length_cons, Nat.succ.injEq]
  refine and_congr_right fun h => ?_
  rw [value_cons_le_cons h.symm hlo hes, value_cons_le_cons (h.trans hlength) hes hhi]

/-- **What lies between numerals with a common lead has that lead.** -/
theorem between_append (hlength : lo.length = hi.length) (hlead : AreDigits lead) (hlo : AreDigits lo)
    (hhi : AreDigits hi) (hds : AreDigits ds) :
    Between (lead ++ lo) (lead ++ hi) ds ↔ ∃ tail, Between lo hi tail ∧ ds = lead ++ tail := by
  induction lead generalizing ds with
  | nil => simp
  | cons a lead ih =>
    obtain ⟨ha, hlead⟩ := forall_mem_cons.1 hlead
    have hlo' : AreDigits (lead ++ lo) := forall_mem_append.2 ⟨hlead, hlo⟩
    have hhi' : AreDigits (lead ++ hi) := forall_mem_append.2 ⟨hlead, hhi⟩
    have hlength' : (lead ++ lo).length = (lead ++ hi).length := by simp [hlength]
    cases ds with
    | nil => simp [Between]
    | cons e es =>
      obtain ⟨-, hes⟩ := forall_mem_cons.1 hds
      have hfirst : Between (a :: (lead ++ lo)) (a :: (lead ++ hi)) (e :: es) ↔
          e = a ∧ Between (lead ++ lo) (lead ++ hi) es := by
        rw [between_cons hlength' hlo' hhi' hes, Between]
        omega
      rw [cons_append, cons_append, hfirst, ih hlead hes]
      simp only [cons_append, List.cons.injEq]
      exact ⟨fun ⟨he, tail, htail, hes⟩ => ⟨tail, htail, he, hes⟩, fun ⟨tail, htail, he, hes⟩ => ⟨he, tail, htail, hes⟩⟩

/-! ### Languages of numerals -/

/-- The numerals of the digits with `P`. -/
def numerals (P : Digits → Prop) : Language Glyph := {w | ∃ ds, AreDigits ds ∧ P ds ∧ w = numeral ds}

theorem numerals_congr (h : ∀ ds, AreDigits ds → (P ds ↔ Q ds)) : numerals P = numerals Q := by
  ext w
  exact exists_congr fun ds => and_congr_right fun hds => and_congr_left' (h ds hds)

theorem numerals_add (P Q : Digits → Prop) : numerals P + numerals Q = numerals fun ds => P ds ∨ Q ds := by
  ext w
  constructor
  · rintro (⟨ds, hds, h, rfl⟩ | ⟨ds, hds, h, rfl⟩)
    · exact ⟨ds, hds, .inl h, rfl⟩
    · exact ⟨ds, hds, .inr h, rfl⟩
  · rintro ⟨ds, hds, h | h, rfl⟩
    · exact .inl ⟨ds, hds, h, rfl⟩
    · exact .inr ⟨ds, hds, h, rfl⟩

/-- Different digits have different numerals. -/
theorem numeral_injective (hds : AreDigits ds) (hes : AreDigits es) (h : numeral ds = numeral es) : ds = es := by
  have hdigit : ∀ d ≤ 9, ∀ e ≤ 9, Nat.digitChar d = Nat.digitChar e → d = e := by decide
  induction ds generalizing es with
  | nil => exact (map_eq_nil_iff.1 h.symm).symm
  | cons d ds ih =>
    cases es with
    | nil => cases h
    | cons e es =>
      obtain ⟨hd, hds⟩ := forall_mem_cons.1 hds
      obtain ⟨he, hes⟩ := forall_mem_cons.1 hes
      obtain ⟨hfirst, hrest⟩ := List.cons.inj h
      rw [hdigit d hd e he (Glyph.char.inj hfirst), ih hds hes hrest]

/-- Properties that exclude each other are those of different numerals. -/
theorem disjoint_numerals (h : ∀ ds, P ds → ¬ Q ds) : Disjoint (numerals P) (numerals Q) := by
  refine Set.disjoint_left.2 ?_
  rintro _ ⟨ds, hds, hP, rfl⟩ ⟨es, hes, hQ, heq⟩
  cases numeral_injective hds hes heq
  exact h ds hP hQ

/-- Numerals one after another are the numerals of the digits one after another. -/
theorem numerals_mul (P Q : Digits → Prop) :
    numerals P * numerals Q = numerals fun ds => ∃ as bs, P as ∧ Q bs ∧ ds = as ++ bs := by
  ext w
  rw [Language.mem_mul]
  constructor
  · rintro ⟨_, ⟨as, has, hP, rfl⟩, _, ⟨bs, hbs, hQ, rfl⟩, rfl⟩
    exact ⟨as ++ bs, forall_mem_append.2 ⟨has, hbs⟩, ⟨as, bs, hP, hQ, rfl⟩, map_append.symm⟩
  · rintro ⟨_, hds, ⟨as, bs, hP, hQ, rfl⟩, rfl⟩
    obtain ⟨has, hbs⟩ := forall_mem_append.1 hds
    exact ⟨_, ⟨as, has, hP, rfl⟩, _, ⟨bs, hbs, hQ, rfl⟩, map_append.symm⟩

theorem numerals_nil : numerals (· = []) = 1 := by
  ext w
  rw [Language.mem_one]
  constructor
  · rintro ⟨_, -, rfl, rfl⟩
    rfl
  · rintro rfl
    exact ⟨[], nofun, rfl, rfl⟩

theorem numerals_false : numerals (fun _ => False) = 0 := by
  ext w
  exact ⟨fun ⟨_, _, h, _⟩ => h.elim, fun h => (Language.notMem_zero w h).elim⟩

theorem numerals_digit_pow (k : ℕ) : numerals (·.length = 1) ^ k = numerals (·.length = k) := by
  induction k with
  | zero =>
    rw [pow_zero, ← numerals_nil]
    exact numerals_congr fun ds _ => length_eq_zero_iff.symm
  | succ k ih =>
    rw [pow_succ', ih, numerals_mul]
    refine numerals_congr fun ds _ => ?_
    constructor
    · rintro ⟨as, bs, has, hbs, rfl⟩
      rw [length_append, has, hbs, Nat.add_comm]
    · intro hlength
      cases ds with
      | nil => cases hlength
      | cons d ds => exact ⟨[d], ds, rfl, Nat.succ.inj hlength, rfl⟩

theorem numerals_zero_pow (k : ℕ) : numerals (· = [0]) ^ k = numerals (· = List.replicate k 0) := by
  induction k with
  | zero => rw [pow_zero, ← numerals_nil, replicate_zero]
  | succ k ih =>
    rw [pow_succ', ih, numerals_mul]
    refine numerals_congr fun ds _ => ?_
    simp [replicate_succ]

/-! ### Leaves -/

theorem language_numeral (h : AreDigits ds) : (Tree.literal (numeral ds)).language = numerals (· = ds) := by
  ext w
  constructor
  · rintro rfl
    exact ⟨ds, h, rfl, rfl⟩
  · rintro ⟨_, -, rfl, rfl⟩
    rfl

theorem language_zero : (Tree.char 48).language = numerals (· = [0]) := by
  have hzero : [Glyph.ofCode 48] = numeral [0] := by decide
  rw [← language_numeral (forall_mem_singleton.2 (Nat.zero_le 9)), ← hzero]
  rfl

theorem isDigit_iff {g : Glyph} : g.isDigit = true ↔ ∃ d ≤ 9, g = .char (Nat.digitChar d) := by
  constructor
  · intro h
    cases g with
    | stray => cases h
    | char c =>
      have hc : 48 ≤ c.toNat ∧ c.toNat ≤ 57 := by
        simpa [Glyph.isDigit, Glyph.isChar, Char.isDigit, UInt32.le_iff_toNat_le] using h
      refine ⟨c.toNat - 48, by omega, congrArg Glyph.char (Char.toNat_inj.1 ?_)⟩
      rw [Nat.toNat_digitChar_of_lt_ten (by omega)]
      omega
  · have hall : ∀ d ≤ 9, (Glyph.char (Nat.digitChar d)).isDigit = true := by decide
    rintro ⟨d, hd, rfl⟩
    exact hall d hd

theorem language_anyDigit : anyDigit.language = numerals (·.length = 1) := by
  ext w
  constructor
  · rintro ⟨-, g, hg, rfl⟩
    obtain ⟨d, hd, rfl⟩ := isDigit_iff.1 hg
    exact ⟨[d], forall_mem_singleton.2 hd, rfl, rfl⟩
  · rintro ⟨ds, hds, hlength, rfl⟩
    obtain ⟨d, rfl⟩ := length_eq_one_iff.1 hlength
    exact ⟨rfl, _, isDigit_iff.2 ⟨d, hds d mem_cons_self, rfl⟩, rfl⟩

/-- The character of a digit has the number 48 and as many as the digit says. -/
theorem ofCode_digit : ∀ d ≤ 9, Glyph.ofCode (Int32.ofInt (48 + (d : ℕ))) = .char (Nat.digitChar d) := by
  decide

/-- The characters between those of two digits are the characters of the digits between them. -/
theorem contains_digit_iff {lo hi : ℤ} (hlo : 0 ≤ lo) (hlo' : lo ≤ 9) (hhi : 0 ≤ hi) (hhi' : hi ≤ 9) {n : Int32} :
    (⟨.plain (Int32.ofInt (48 + lo)), .plain (Int32.ofInt (48 + hi))⟩ : Range Character).contains n = true ↔
      ∃ d : ℕ, lo ≤ d ∧ d ≤ hi ∧ n = Int32.ofInt (48 + d) := by
  have hends : (⟨.plain (Int32.ofInt (48 + lo)), .plain (Int32.ofInt (48 + hi))⟩ :
      Range Character).contains n = true ↔ 48 + lo ≤ n.toInt ∧ n.toInt ≤ 48 + hi := by
    simp only [Range.contains, Character.value, Bool.and_eq_true, decide_eq_true_eq, Int32.le_iff_toInt_le]
    rw [Int32.toInt_ofInt_of_le (by omega) (by omega), Int32.toInt_ofInt_of_le (by omega) (by omega)]
  rw [hends]
  constructor
  · rintro ⟨h, h'⟩
    refine ⟨(n.toInt - 48).toNat, by omega, by omega, Int32.toInt_inj.1 ?_⟩
    rw [Int32.toInt_ofInt_of_le (by omega) (by omega)]
    omega
  · rintro ⟨d, hd, hd', rfl⟩
    rw [Int32.toInt_ofInt_of_le (by omega) (by omega)]
    omega

theorem language_digitRange {lo hi : ℤ} (hlo : 0 ≤ lo) (hle : lo ≤ hi) (hhi : hi ≤ 9) :
    (digitRange lo hi).language = numerals fun ds => ∃ d : ℕ, lo ≤ d ∧ d ≤ hi ∧ ds = [d] := by
  unfold digitRange
  split
  · next h =>
    rw [language_anyDigit]
    refine numerals_congr fun ds hds => ?_
    rw [length_eq_one_iff]
    refine exists_congr fun d => ⟨?_, fun h => h.2.2⟩
    rintro rfl
    have hd := hds d mem_cons_self
    exact ⟨by omega, by omega, rfl⟩
  · ext w
    constructor
    · rintro ⟨-, r, hr, ends, hends, n, hn, rfl⟩
      obtain rfl := mem_singleton.1 hr
      cases hends
      obtain ⟨d, hd, hd', rfl⟩ := (contains_digit_iff hlo (by omega) (by omega) hhi).1 hn
      have hd9 : d ≤ 9 := by omega
      exact ⟨[d], forall_mem_singleton.2 hd9, ⟨d, hd, hd', rfl⟩, by rw [ofCode_digit d hd9]; rfl⟩
    · rintro ⟨_, -, ⟨d, hd, hd', rfl⟩, rfl⟩
      refine ⟨rfl, _, mem_singleton_self _, _, rfl, _,
        (contains_digit_iff hlo (by omega) (by omega) hhi).2 ⟨d, hd, hd', rfl⟩, ?_⟩
      rw [ofCode_digit d (by omega)]
      rfl

/-! ### Pieces with one bounded digit -/

/-- The numerals that have `n` digits with `P` behind `lead`. -/
def behind (lead : Digits) (n : ℕ) (P : Digits → Prop) : Language Glyph :=
  numerals fun ds => ∃ tail, ds = lead ++ tail ∧ tail.length = n ∧ P tail

theorem behind_congr (h : ∀ d es, d ≤ 9 → AreDigits es → es.length = n →
    (P (d :: es) ↔ Q (d :: es))) : behind lead (n + 1) P = behind lead (n + 1) Q := by
  refine numerals_congr fun ds hds => exists_congr fun tail => and_congr_right ?_
  rintro rfl
  refine and_congr_right fun hlength => ?_
  obtain ⟨d, es, rfl⟩ := exists_cons_of_length_eq_add_one hlength
  obtain ⟨hd, hes⟩ := forall_mem_cons.1 (forall_mem_append.1 hds).2
  exact h d es hd hes (Nat.succ.inj hlength)

theorem divides_congr (h : Divides ts (behind lead (n + 1) P))
    (hPQ : ∀ d es, d ≤ 9 → AreDigits es → es.length = n → (P (d :: es) ↔ Q (d :: es))) :
    Divides ts (behind lead (n + 1) Q) := behind_congr hPQ ▸ h

/-- Trees that are told apart by the digits behind one lead. -/
theorem divides_append (h : Divides ts (behind lead (n + 1) P)) (h' : Divides us (behind lead (n + 1) Q))
    (hapart : ∀ d es, P (d :: es) → ¬ Q (d :: es)) :
    Divides (ts ++ us) (behind lead (n + 1) fun tail => P tail ∨ Q tail) := by
  have hadd : behind lead (n + 1) P + behind lead (n + 1) Q = behind lead (n + 1) fun tail => P tail ∨ Q tail := by
    rw [behind, behind, numerals_add]
    exact numerals_congr fun ds _ => by simp only [← exists_or, ← and_or_left]
  rw [← hadd]
  refine h.append h' (disjoint_numerals ?_)
  rintro _ ⟨tail, rfl, hlength, hP⟩ ⟨tail', htail, -, hQ⟩
  cases append_cancel_left htail
  obtain ⟨d, es, rfl⟩ := exists_cons_of_length_eq_add_one hlength
  exact hapart d es hP hQ

/-- The last digit of the lead can be taken for the first one behind it. -/
theorem behind_concat (lead : Digits) (d n : ℕ) (P : Digits → Prop) :
    behind (lead ++ [d]) n P = behind lead (n + 1) fun tail => ∃ es, tail = d :: es ∧ P es := by
  refine numerals_congr fun ds _ => ?_
  constructor
  · rintro ⟨es, rfl, hlength, hes⟩
    exact ⟨d :: es, by simp, congrArg Nat.succ hlength, es, rfl, hes⟩
  · rintro ⟨_, rfl, hlength, es, rfl, hes⟩
    exact ⟨es, by simp, Nat.succ.inj hlength, hes⟩

/-- The first digit lies between the bounds. -/
def FirstBetween (lo hi : ℤ) (ds : Digits) : Prop := ∃ (d : ℕ) (rest : Digits), ds = d :: rest ∧ lo ≤ d ∧ d ≤ hi

theorem firstBetween_cons {lo hi : ℤ} : FirstBetween lo hi (d :: rest) ↔ lo ≤ d ∧ d ≤ hi := by
  constructor
  · rintro ⟨d, rest, h, hd⟩
    cases h
    exact hd
  · exact fun h => ⟨d, rest, rfl, h⟩

/-- **A piece has one bounded digit** between a given lead and free digits. -/
theorem language_digitPattern (hlead : AreDigits lead) {lo hi : ℤ} (hlo : 0 ≤ lo) (hle : lo ≤ hi)
    (hhi : hi ≤ 9) (k : ℕ) :
    (digitPattern (numeral lead) lo hi k).language = behind lead (k + 1) (FirstBetween lo hi) := by
  have hfirst : sequenceLanguage (if numeral lead = [] then [] else [.literal (numeral lead)]) =
      numerals (· = lead) := by
    split
    · next h =>
      obtain rfl := map_eq_nil_iff.1 h
      exact numerals_nil.symm
    · rw [sequenceLanguage, sequenceLanguage, mul_one, language_numeral hlead]
  have hlast : sequenceLanguage (if (k : ℤ) > 0 then [anyDigit.exactly k] else []) =
      numerals (·.length = k) := by
    rw [← numerals_digit_pow, ← language_anyDigit]
    split
    · rw [sequenceLanguage, sequenceLanguage, mul_one, Tree.language_exactly]
    · obtain rfl : k = 0 := by omega
      rw [sequenceLanguage, pow_zero]
  rw [digitPattern, Tree.language, Tree.sequenceLanguage_append, Tree.sequenceLanguage_append, hfirst, hlast,
    sequenceLanguage, sequenceLanguage, mul_one, language_digitRange hlo hle hhi, numerals_mul, numerals_mul]
  refine numerals_congr fun ds _ => ?_
  constructor
  · rintro ⟨_, rest, ⟨_, _, rfl, ⟨d, hd, hd', rfl⟩, rfl⟩, hrest, rfl⟩
    exact ⟨d :: rest, by simp, congrArg Nat.succ hrest, d, rest, rfl, hd, hd'⟩
  · rintro ⟨_, rfl, hlength, d, rest, rfl, hd, hd'⟩
    exact ⟨lead ++ [d], rest, ⟨lead, [d], rfl, ⟨d, hd, hd', rfl⟩, rfl⟩, Nat.succ.inj hlength, by simp⟩

/-- A piece that is left out where its bounds leave no digit. -/
theorem divides_digitPattern [Decidable c] (hlead : AreDigits lead) {lo hi : ℤ} (hlo : 0 ≤ lo) (hhi : hi ≤ 9)
    (hc : c ↔ lo ≤ hi) (k : ℕ) : Divides (if c then [digitPattern (numeral lead) lo hi k] else [])
      (behind lead (k + 1) (FirstBetween lo hi)) := by
  split
  · next h => exact divides_singleton (language_digitPattern hlead hlo (hc.1 h) hhi k)
  · next h =>
    refine Eq.subst (motive := Divides []) ?_ divides_nil
    rw [← numerals_false]
    refine numerals_congr fun ds _ => ⟨False.elim, ?_⟩
    rintro ⟨_, -, -, d, rest, -, hd, hd'⟩
    exact h (hc.2 (hd.trans hd'))

theorem exists_cons_eq : (∃ es', e :: es = d :: es' ∧ P es') ↔ e = d ∧ P es := by
  simp

theorem areDigits_concat (hlead : AreDigits lead) (hd : d ≤ 9) : AreDigits (lead ++ [d]) :=
  forall_mem_append.2 ⟨hlead, forall_mem_singleton.2 hd⟩

/-- **From the given digits up:** the first digit is the given one and the others are at least the given ones, or it is
greater and the others are free. -/
theorem divides_upFrom (hlead : AreDigits lead) (hrest : AreDigits rest) (hne : rest ≠ []) :
    Divides (upFrom lead rest) (behind lead rest.length (value rest ≤ value ·)) := by
  induction rest generalizing lead with
  | nil => exact absurd rfl hne
  | cons d rest ih =>
    obtain ⟨hd, hrest⟩ := forall_mem_cons.1 hrest
    rw [upFrom]
    split
    · next hzeros =>
      have hzero := value_eq_zero_of_all hzeros
      refine divides_congr (divides_singleton (language_digitPattern hlead (by omega) (by omega) le_rfl _)) ?_
      intro e es he hes hlength
      rw [firstBetween_cons, value_cons_le_cons hlength.symm hrest hes]
      omega
    · next hzeros =>
      have hsame := ih (areDigits_concat hlead hd) hrest (by rintro rfl; exact hzeros rfl)
      rw [behind_concat] at hsame
      have hgreater := divides_digitPattern (c := d < 9) hlead (show (0 : ℤ) ≤ d + 1 by omega) le_rfl (by omega)
        rest.length
      refine divides_congr (divides_append hsame hgreater ?_) ?_
      · simp only [exists_cons_eq, firstBetween_cons]
        omega
      · intro e es he hes hlength
        rw [exists_cons_eq, firstBetween_cons, value_cons_le_cons hlength.symm hrest hes]
        omega

/-- **Down to the given digits.** -/
theorem divides_downTo (hlead : AreDigits lead) (hrest : AreDigits rest) (hne : rest ≠ []) :
    Divides (downTo lead rest) (behind lead rest.length (value · ≤ value rest)) := by
  induction rest generalizing lead with
  | nil => exact absurd rfl hne
  | cons d rest ih =>
    obtain ⟨hd, hrest⟩ := forall_mem_cons.1 hrest
    rw [downTo]
    split
    · next hnines =>
      refine divides_congr (divides_singleton (language_digitPattern hlead le_rfl (by omega) (by omega) _)) ?_
      intro e es he hes hlength
      have hle := value_le_of_all_nine hnines hlength hes
      rw [firstBetween_cons, value_cons_le_cons hlength hes hrest]
      omega
    · next hnines =>
      have hsame := ih (areDigits_concat hlead hd) hrest (by rintro rfl; exact hnines rfl)
      rw [behind_concat] at hsame
      have hsmaller := divides_digitPattern (c := d > 0) hlead le_rfl (show (d - 1 : ℤ) ≤ 9 by omega) (by omega)
        rest.length
      refine divides_congr (divides_append hsmaller hsame ?_) ?_
      · simp only [exists_cons_eq, firstBetween_cons]
        omega
      · intro e es he hes hlength
        rw [exists_cons_eq, firstBetween_cons, value_cons_le_cons hlength hes hrest]
        omega

/-! ### Numerals between two of one length -/

/-- Trees that are left out where the condition holds. -/
theorem divides_unless [Decidable c] (h : ¬c → Divides ts (behind lead n P)) :
    Divides (if c then [] else ts) (behind lead n fun tail => ¬c ∧ P tail) := by
  split
  · next hc =>
    refine Eq.subst (motive := Divides []) ?_ divides_nil
    rw [← numerals_false]
    refine numerals_congr fun ds _ => ⟨False.elim, ?_⟩
    rintro ⟨-, -, -, hnot, -⟩
    exact hnot hc
  · next hc =>
    refine Eq.subst (motive := Divides ts) ?_ (h hc)
    exact numerals_congr fun ds _ => by simp only [hc, not_false_iff, true_and]

/-- **Numerals whose bounds differ in their first digit** begin like the lower bound, like the upper bound or
with a digit between the two. -/
theorem divides_pieces {loRest hiRest : Digits} (hlt : first < last) (hlast : last ≤ 9)
    (hlength : loRest.length = hiRest.length) (hlo : AreDigits loRest) (hhi : AreDigits hiRest) :
    Divides (pieces first loRest last hiRest) (numerals (Between (first :: loRest) (last :: hiRest))) := by
  have hlower : Divides (if loRest.all (· = 0) then [] else upFrom [first] loRest)
      (behind [] (loRest.length + 1) fun ds =>
        ¬loRest.all (· = 0) = true ∧ ∃ es, ds = first :: es ∧ value loRest ≤ value es) := by
    refine divides_unless fun hzeros => ?_
    rw [← behind_concat [] first]
    exact divides_upFrom (forall_mem_singleton.2 (hlt.le.trans hlast)) hlo (by rintro rfl; exact hzeros rfl)
  have hupper : Divides (if hiRest.all (· = 9) then [] else downTo [last] hiRest)
      (behind [] (loRest.length + 1) fun ds =>
        ¬hiRest.all (· = 9) = true ∧ ∃ es, ds = last :: es ∧ value es ≤ value hiRest) := by
    refine divides_unless fun hnines => ?_
    rw [hlength, ← behind_concat [] last]
    exact divides_downTo (forall_mem_singleton.2 hlast) hhi (by rintro rfl; exact hnines rfl)
  have hbetween : numerals (Between (first :: loRest) (last :: hiRest)) = behind [] (loRest.length + 1) fun ds =>
        value (first :: loRest) ≤ value ds ∧ value ds ≤ value (last :: hiRest) :=
    numerals_congr fun ds _ => by simp [Between]
  let lo : ℤ := if loRest.all (· = 0) then first else first + 1
  let hi : ℤ := if hiRest.all (· = 9) then last else last - 1
  have hmiddle : Divides (if lo ≤ hi then [digitPattern [] lo hi loRest.length] else [])
      (behind [] (loRest.length + 1) (FirstBetween lo hi)) :=
    divides_digitPattern (nofun : AreDigits []) (by simp only [lo]; split <;> omega)
      (by simp only [hi]; split <;> omega) Iff.rfl _
  rw [hbetween]
  refine divides_congr (divides_append (divides_append hlower hmiddle ?_) hupper ?_) ?_
  · intro e es he hmiddle
    rw [exists_cons_eq] at he
    rw [firstBetween_cons] at hmiddle
    simp only [lo, if_neg he.1] at hmiddle
    omega
  · intro e es he hlast
    rw [exists_cons_eq] at hlast
    rw [exists_cons_eq, firstBetween_cons] at he
    simp only [hi, if_neg hlast.1] at he
    omega
  · intro e es he hes hes'
    rw [exists_cons_eq, exists_cons_eq, firstBetween_cons, value_cons_le_cons hes'.symm hlo hes,
      value_cons_le_cons (hes'.trans hlength) hes hhi]
    -- beside a bound that is all zeros or all nines behind its first digit, the digits are free
    have hzero : loRest.all (· = 0) = true → value loRest = 0 := value_eq_zero_of_all
    have hnine : hiRest.all (· = 9) = true → value es ≤ value hiRest := fun h =>
      value_le_of_all_nine h (hes'.trans hlength) hes
    simp only [lo, hi]
    generalize loRest.all (· = 0) = zeros at hzero ⊢
    generalize hiRest.all (· = 9) = nines at hnine ⊢
    cases zeros <;> cases nines <;>
      simp only [Bool.false_eq_true, if_true, if_false, not_true, not_false_iff, false_and, true_and, false_or,
        or_false, forall_const] at hzero hnine ⊢ <;>
      omega

theorem language_oneOf (ts : List Tree) : (oneOf ts).language = choiceLanguage ts := by
  unfold oneOf
  split
  · exact (Tree.choiceLanguage_singleton _).symm
  · rfl

theorem language_diverging (hab : a < b) (hb : b ≤ 9) (hlength : lo.length = hi.length) (hlo : AreDigits lo)
    (hhi : AreDigits hi) : (diverging (a :: lo) (b :: hi)).language = numerals (Between (a :: lo) (b :: hi)) := by
  cases lo with
  | nil =>
    obtain rfl := eq_nil_of_length_eq_zero hlength.symm
    rw [diverging, language_digitRange (by omega) (by omega) (by omega)]
    refine numerals_congr fun ds hds => ?_
    cases ds with
    | nil => simp [Between]
    | cons e es =>
      rw [between_cons rfl hlo hhi (forall_mem_cons.1 hds).2]
      simp only [List.cons.injEq, length_nil, length_eq_zero_iff]
      constructor
      · rintro ⟨d, hd, hd', rfl, rfl⟩
        exact ⟨rfl, by omega, by omega⟩
      · rintro ⟨rfl, h, h'⟩
        exact ⟨e, by omega, by omega, rfl, rfl⟩
  | cons =>
    cases hi with
    | nil => cases hlength
    | cons => exact (language_oneOf _).trans (divides_pieces hab hb hlength hlo hhi).language_eq

/-- **Numbers of one length between two bounds.** -/
theorem language_sameLength (hle : m ≤ n) (hlength : (digitsOf m).length = (digitsOf n).length) :
    (sameLength (digitsOf m) (digitsOf n)).language = numerals (Between (digitsOf m) (digitsOf n)) := by
  obtain ⟨rfl, heq⟩ | ⟨lead, a, b, lo, hi, hm, hn, hab, hb, hrest, hlead, hlo, hhi, heq⟩ :=
    sameLength_cases hle hlength
  · rw [heq, language_numeral (areDigits_digitsOf m)]
    refine numerals_congr fun ds hds => ?_
    constructor
    · rintro rfl
      exact ⟨rfl, le_rfl, le_rfl⟩
    · rintro ⟨hds', hge, hle⟩
      exact eq_of_value_eq hds' hds (areDigits_digitsOf m) (hle.antisymm hge)
  · have hdiverging := language_diverging hab hb hrest hlo hhi
    rw [heq, hm, hn]
    split
    · next hnil =>
      subst hnil
      exact hdiverging
    · rw [Tree.language, Tree.sequenceLanguage_pair, language_numeral hlead, hdiverging, numerals_mul]
      refine numerals_congr fun ds hds => ?_
      have hlo' : AreDigits (a :: lo) := forall_mem_cons.2 ⟨hab.le.trans hb, hlo⟩
      have hhi' : AreDigits (b :: hi) := forall_mem_cons.2 ⟨hb, hhi⟩
      rw [between_append (by simpa using hrest) hlead hlo' hhi' hds]
      simp

/-! ### Zeros in front -/

/-- A part that is written as it is, behind zeros. -/
theorem numerals_zeros_mul (Z : ℕ → Prop) (P : Digits → Prop) :
    (numerals fun ds => ∃ k, Z k ∧ ds = List.replicate k 0) * numerals P =
      numerals fun ds => ∃ k es, Z k ∧ P es ∧ ds = List.replicate k 0 ++ es := by
  rw [numerals_mul]
  refine numerals_congr fun ds _ => ?_
  constructor
  · rintro ⟨_, es, ⟨k, hk, rfl⟩, hes, rfl⟩
    exact ⟨k, es, hk, hes, rfl⟩
  · rintro ⟨k, es, hk, hes, rfl⟩
    exact ⟨_, es, ⟨k, hk, rfl⟩, hes, rfl⟩

/-- Zeros before a numeral, as many as the padding wants. -/
theorem language_padded (h : t.language = numerals P) (p : Padding) (zeros : ℕ) : (padded p zeros t).language =
      numerals fun ds => ∃ k es, p.Fills zeros k ∧ P es ∧ ds = List.replicate k 0 ++ es := by
  have hnone : numerals P = numerals fun ds => ∃ k es, k = 0 ∧ P es ∧ ds = List.replicate k 0 ++ es := by
    refine numerals_congr fun ds _ => ?_
    simp
  unfold padded
  split
  · next hzero =>
    subst hzero
    have hfills : ∀ k, p.Fills 0 k ↔ k = 0 := by
      intro k
      cases p <;> simp [Padding.Fills]
    simp only [hfills, h, ← hnone]
  · split
    · have hzeros : ((Tree.char 48).repeated 0 zeros).language =
          numerals fun ds => ∃ k, k ≤ zeros ∧ ds = List.replicate k 0 := by
        ext w
        simp only [Tree.mem_language_upTo, language_zero, numerals_zero_pow]
        constructor
        · rintro ⟨k, hk, ds, hds, rfl, rfl⟩
          exact ⟨_, hds, ⟨k, hk, rfl⟩, rfl⟩
        · rintro ⟨_, hds, ⟨k, hk, rfl⟩, rfl⟩
          exact ⟨k, hk, _, hds, rfl, rfl⟩
      rw [Tree.language, Tree.sequenceLanguage_pair, hzeros, h, numerals_zeros_mul]
      rfl
    · have hzeros : (Tree.literal (List.replicate zeros (Glyph.char '0'))).language =
          numerals fun ds => ∃ k, k = zeros ∧ ds = List.replicate k 0 := by
        have hnumeral : List.replicate zeros (Glyph.char '0') = numeral (List.replicate zeros 0) :=
          by rw [numeral, map_replicate]; rfl
        rw [hnumeral, language_numeral (areDigits_replicate zeros (Nat.zero_le 9))]
        refine numerals_congr fun ds _ => ?_
        simp
      rw [Tree.language, Tree.sequenceLanguage_pair, hzeros, h, numerals_zeros_mul]
      rfl
    · next hoptional hrequired =>
      rw [h, hnone]
      cases p with
      | none | undeclared => rfl
      | optional => exact (hoptional rfl).elim
      | required => exact (hrequired rfl).elim

/-! ### Numbers -/

/-- Numerals between those of two numbers with as many digits are the numerals of the numbers between them. -/
theorem between_digitsOf (hlength : (digitsOf m).length = (digitsOf n).length) (hds : AreDigits ds) :
    Between (digitsOf m) (digitsOf n) ds ↔ ∃ v, m ≤ v ∧ v ≤ n ∧ ds = digitsOf v := by
  rw [Between, value_digitsOf, value_digitsOf]
  constructor
  · rintro ⟨hds', hm, hn⟩
    have hlow := length_digitsOf_le hm
    have hhigh := length_digitsOf_le hn
    exact ⟨value ds, hm, hn, eq_digitsOf hds (by omega)⟩
  · rintro ⟨v, hm, hn, rfl⟩
    have hlow := length_digitsOf_le hm
    have hhigh := length_digitsOf_le hn
    rw [value_digitsOf]
    exact ⟨by omega, hm, hn⟩

/-- The numeral of a number from `m` to `n`, with zeros before it up to the width. -/
def IsFilled (p : Padding) (width m n : ℕ) (ds : Digits) : Prop :=
  ∃ v k, m ≤ v ∧ v ≤ n ∧ p.Fills (width - (digitsOf v).length) k ∧ ds = List.replicate k 0 ++ digitsOf v

/-- The numbers of one number of digits. -/
theorem language_padded_sameLength (p : Padding) (width : ℕ) (hle : m ≤ n)
    (hlength : (digitsOf m).length = (digitsOf n).length) :
    (padded p (width - (digitsOf n).length) (sameLength (digitsOf m) (digitsOf n))).language =
      numerals (IsFilled p width m n) := by
  rw [language_padded (language_sameLength hle hlength)]
  refine numerals_congr fun ds hds => ?_
  constructor
  · rintro ⟨k, es, hk, hes, rfl⟩
    obtain ⟨v, hm, hn, rfl⟩ := (between_digitsOf hlength (forall_mem_append.1 hds).2).1 hes
    have hlow := length_digitsOf_le hm
    have hhigh := length_digitsOf_le hn
    have hv : (digitsOf v).length = (digitsOf n).length := by omega
    exact ⟨v, k, hm, hn, hv ▸ hk, rfl⟩
  · rintro ⟨v, k, hm, hn, hk, rfl⟩
    have hlow := length_digitsOf_le hm
    have hhigh := length_digitsOf_le hn
    have hv : (digitsOf v).length = (digitsOf n).length := by omega
    exact ⟨k, digitsOf v, hv ▸ hk, (between_digitsOf hlength (areDigits_digitsOf v)).2 ⟨v, hm, hn, rfl⟩, rfl⟩

theorem value_replicate_zero_append (k : ℕ) (ds : Digits) : value (List.replicate k 0 ++ ds) = value ds := by
  rw [value_append, value_replicate_zero, Nat.zero_mul, Nat.zero_add]

theorem IsFilled.value_mem (h : IsFilled p width m n ds) : m ≤ value ds ∧ value ds ≤ n := by
  obtain ⟨v, k, hm, hn, -, rfl⟩ := h
  rw [value_replicate_zero_append, value_digitsOf]
  exact ⟨hm, hn⟩

/-- **The numbers from one to another, by the number of their digits.** -/
theorem divides_byLength (p : Padding) (width gap : ℕ) (hle : m ≤ n)
    (hlength : (digitsOf m).length + gap = (digitsOf n).length) :
    Divides (byLength p width (digitsOf n) gap (digitsOf m)) (numerals (IsFilled p width m n)) := by
  induction gap generalizing m with
  | zero => exact divides_singleton (language_padded_sameLength p width hle hlength)
  | succ gap ih =>
    obtain ⟨top, hm, hn, htop, hrest, heq⟩ := byLength_succ p width gap hlength
    have hfirst := divides_singleton (language_padded_sameLength p width hm htop)
    have hparts : numerals (IsFilled p width m top) + numerals (IsFilled p width (top + 1) n) =
        numerals (IsFilled p width m n) := by
      rw [numerals_add]
      refine numerals_congr fun ds _ => ?_
      constructor
      · rintro (⟨v, k, hlow, hhigh, hv⟩ | ⟨v, k, hlow, hhigh, hv⟩)
        · exact ⟨v, k, hlow, by omega, hv⟩
        · exact ⟨v, k, by omega, hhigh, hv⟩
      · rintro ⟨v, k, hlow, hhigh, hv⟩
        rcases Nat.lt_or_ge top v with hlt | hge
        · exact .inr ⟨v, k, hlt, hhigh, hv⟩
        · exact .inl ⟨v, k, hlow, hge, hv⟩
    rw [heq, ← hparts]
    refine hfirst.append (ih hn hrest) (disjoint_numerals fun ds h h' => ?_)
    have hle := h.value_mem.2
    have hge := h'.value_mem.1
    omega

/-- The numerals of the natural numbers from one to another. -/
theorem language_unsigned (p : Padding) (width : ℕ) (hle : m ≤ n) :
    (unsigned p width m n).language = numerals (IsFilled p width m n) := by
  have hlength := length_digitsOf_le hle
  rw [unsigned, language_oneOf, (divides_byLength p width _ hle (by omega)).language_eq]

/-! ### Zeros and the width -/

/-- **Digits are zeros before the numeral of their value.** -/
theorem eq_replicate_append_digitsOf (hds : AreDigits ds) (hne : ds ≠ []) :
    ds = List.replicate (ds.length - (digitsOf (value ds)).length) 0 ++ digitsOf (value ds) := by
  have hle := length_digitsOf_value_le hds hne
  refine eq_of_value_eq ?_ hds ?_ ?_
  · rw [length_append, length_replicate]
    omega
  · exact forall_mem_append.2 ⟨areDigits_replicate _ (Nat.zero_le 9), areDigits_digitsOf _⟩
  · rw [value_replicate_zero_append, value_digitsOf]

/-- Only zero itself begins with a zero. -/
theorem digitsOf_eq_self_iff (hds : AreDigits ds) (hne : ds ≠ []) :
    (digitsOf (value ds)).length = ds.length ↔ (ds.head? = some 0 → ds = [0]) := by
  obtain ⟨d, es, rfl⟩ := exists_cons_of_ne_nil hne
  rcases Nat.eq_zero_or_pos d with rfl | hd
  · have hvalue : value (0 :: es) = value es := value_replicate_zero_append 1 es
    rw [hvalue]
    cases es with
    | nil => exact iff_of_true rfl fun _ => rfl
    | cons e es =>
      have hle := length_digitsOf_value_le (forall_mem_cons.1 hds).2 (cons_ne_nil e es)
      rw [length_cons] at hle
      refine iff_of_false (by simp only [length_cons]; omega) ?_
      simp
  · refine iff_of_true (by rw [digitsOf_value_cons hds hd]) fun h => ?_
    cases h
    cases hd

/-- **The width says which zeros there may be.** -/
theorem isFilled_iff (hwidth : (digitsOf n).length ≤ width) (hds : AreDigits ds) :
    IsFilled p width m n ds ↔ ds ≠ [] ∧ m ≤ value ds ∧ value ds ≤ n ∧ p.Admits width ds := by
  have hadmits : ∀ {k : ℕ}, ds ≠ [] → value ds ≤ n → k + (digitsOf (value ds)).length = ds.length →
      (p.Fills (width - (digitsOf (value ds)).length) k ↔ p.Admits width ds) := by
    intro k hne hn hk
    have hlength := length_digitsOf_le hn
    have hplain := digitsOf_eq_self_iff hds hne
    cases p with
    | none | undeclared =>
      simp only [Padding.Fills, Padding.Admits, ← hplain]
      omega
    | optional | required =>
      simp only [Padding.Fills, Padding.Admits]
      omega
  constructor
  · rintro ⟨v, k, hm, hn, hk, hds'⟩
    have hvalue : value ds = v := by rw [hds', value_replicate_zero_append, value_digitsOf]
    have hne : ds ≠ [] := by
      rintro rfl
      have hpos := length_digitsOf_pos v
      have hlength := congrArg List.length hds'
      simp only [length_nil, length_append] at hlength
      omega
    subst hvalue
    refine ⟨hne, hm, hn, (hadmits hne hn ?_).1 hk⟩
    have hlength := congrArg List.length hds'
    rw [length_append, length_replicate] at hlength
    exact hlength.symm
  · rintro ⟨hne, hm, hn, hadmitted⟩
    have hle := length_digitsOf_value_le hds hne
    exact ⟨value ds, _, hm, hn, (hadmits hne hn (Nat.sub_add_cancel hle)).2 hadmitted,
      eq_replicate_append_digitsOf hds hne⟩

/-! ### Signs -/

/-- The sign of a numeral. -/
def sign (negative : Bool) : Text := if negative then "-" else []

/-- The integer with the sign and the digits. -/
def signedValue (negative : Bool) (ds : Digits) : ℤ := if negative then -value ds else value ds

/-- The text is a numeral of an integer from `min` to `max`: digits, with a sign in front only if `min` is negative,
and with the zeros that the padding wants. -/
def IsNumeralIn (min max : ℤ) (p : Padding) (w : Text) : Prop :=
  ∃ negative ds, AreDigits ds ∧ ds ≠ [] ∧ w = sign negative ++ numeral ds ∧ (negative = true → min < 0) ∧
    min ≤ signedValue negative ds ∧ signedValue negative ds ≤ max ∧
    p.Admits (Nat.max (widthOf min.natAbs) (widthOf max.natAbs)) ds

/-- The text is a numeral without a sign, of a number with the property. -/
def IsNaturalWith (P : ℕ → Prop) (p : Padding) (width : ℕ) (w : Text) : Prop :=
  ∃ ds, AreDigits ds ∧ ds ≠ [] ∧ w = numeral ds ∧ P (value ds) ∧ p.Admits width ds

theorem isNaturalWith_congr {P Q : ℕ → Prop} (h : ∀ n, P n ↔ Q n) :
    IsNaturalWith P p width w ↔ IsNaturalWith Q p width w := by
  unfold IsNaturalWith
  simp only [h]

theorem isNumeralIn_iff (min max : ℤ) (hwidth : Nat.max (widthOf min.natAbs) (widthOf max.natAbs) = width) :
    IsNumeralIn min max p w ↔ IsNaturalWith (fun n => min ≤ n ∧ n ≤ max) p width w ∨
      min < 0 ∧ ∃ u, IsNaturalWith (fun n => min ≤ -n ∧ -n ≤ max) p width u ∧ w = sign true ++ u := by
  subst hwidth
  unfold IsNumeralIn IsNaturalWith
  rw [Bool.exists_bool]
  refine or_congr ?_ ?_
  · simp [sign, signedValue, and_assoc]
  · constructor
    · rintro ⟨ds, hds, hne, hw, hmin, hfrom, hto, hadmits⟩
      exact ⟨hmin rfl, _, ⟨ds, hds, hne, rfl, ⟨hfrom, hto⟩, hadmits⟩, hw⟩
    · rintro ⟨hmin, _, ⟨ds, hds, hne, rfl, ⟨hfrom, hto⟩, hadmits⟩, hw⟩
      exact ⟨ds, hds, hne, hw, fun _ => hmin, hfrom, hto, hadmits⟩

theorem mem_language_unsigned (hle : m ≤ n) (hwidth : widthOf n ≤ width) :
    w ∈ (unsigned p width m n).language ↔ IsNaturalWith (fun k => m ≤ k ∧ k ≤ n) p width w := by
  rw [language_unsigned p width hle]
  constructor
  · rintro ⟨ds, hds, hfilled, rfl⟩
    obtain ⟨hne, hfrom, hto, hadmits⟩ := (isFilled_iff hwidth hds).1 hfilled
    exact ⟨ds, hds, hne, rfl, ⟨hfrom, hto⟩, hadmits⟩
  · rintro ⟨ds, hds, hne, rfl, ⟨hfrom, hto⟩, hadmits⟩
    exact ⟨ds, hds, (isFilled_iff hwidth hds).2 ⟨hne, hfrom, hto, hadmits⟩, rfl⟩

theorem mem_language_minus : w ∈ (Tree.concat [.literal "-", t]).language ↔ ∃ u ∈ t.language, w = sign true ++ u := by
  rw [Tree.language, Tree.sequenceLanguage_pair, Language.mem_mul]
  constructor
  · rintro ⟨_, rfl, u, hu, rfl⟩
    exact ⟨u, hu, rfl⟩
  · rintro ⟨u, hu, rfl⟩
    exact ⟨_, rfl, u, hu, rfl⟩

/-- **The texts of a range** are the numerals of its integers. The cases are those of the split by sign. -/
theorem mem_language_signed {min max : ℤ} (h : min ≤ max) :
    w ∈ (signed p min max).language ↔ IsNumeralIn min max p w := by
  rcases min with m | m <;> rcases max with n | n
  · have hle : m ≤ n := Int.ofNat_le.1 h
    have hwidth : Nat.max (widthOf m) (widthOf n) = widthOf n := Nat.max_eq_right (length_digitsOf_le hle)
    rw [isNumeralIn_iff (.ofNat m) (.ofNat n) hwidth, signed, mem_language_unsigned hle le_rfl,
      or_iff_left fun hminus => absurd hminus.1 (not_lt.2 (Int.natCast_nonneg m))]
    exact isNaturalWith_congr fun k => by simp only [Int.ofNat_eq_natCast, Int.ofNat_le]
  · exact absurd h (not_le.2 ((Int.negSucc_lt_zero n).trans_le (Int.natCast_nonneg m)))
  · rw [isNumeralIn_iff _ _ rfl, signed, Tree.language, Tree.choiceLanguage, Tree.choiceLanguage_singleton,
      Language.mem_add, or_comm, mem_language_minus]
    refine or_congr ?_ ?_
    · rw [mem_language_unsigned (Nat.zero_le n) (Nat.le_max_right _ _)]
      refine isNaturalWith_congr fun k => ?_
      simp only [Int.negSucc_eq, Int.ofNat_eq_natCast]
      omega
    · rw [and_iff_right (Int.negSucc_lt_zero m)]
      refine exists_congr fun u => and_congr_left' ?_
      rw [mem_language_unsigned (Nat.zero_le (m + 1)) (Nat.le_max_left _ _)]
      refine isNaturalWith_congr fun k => ?_
      simp only [Int.negSucc_eq, Int.ofNat_eq_natCast]
      omega
  · have hle : n + 1 ≤ m + 1 := by
      simp only [Int.negSucc_eq] at h
      omega
    have hwidth : Nat.max (widthOf (m + 1)) (widthOf (n + 1)) = widthOf (m + 1) :=
      Nat.max_eq_left (length_digitsOf_le hle)
    have hnatural : ¬ IsNaturalWith (fun k => Int.negSucc m ≤ k ∧ k ≤ Int.negSucc n) p (widthOf (m + 1)) w := by
      rintro ⟨ds, -, -, -, ⟨-, hto⟩, -⟩
      exact absurd hto (not_le.2 ((Int.negSucc_lt_zero n).trans_le (Int.natCast_nonneg _)))
    rw [isNumeralIn_iff (.negSucc m) (.negSucc n) hwidth, or_iff_right hnatural,
      and_iff_right (Int.negSucc_lt_zero m), signed, mem_language_minus]
    refine exists_congr fun u => and_congr_left' ?_
    rw [mem_language_unsigned hle le_rfl]
    refine isNaturalWith_congr fun k => ?_
    simp only [Int.negSucc_eq]
    omega

end NumericRange

open NumericRange (IsNumeralIn)

theorem numericRange_eq_ok {min max : ℤ} {p : Padding} (hp : ∀ code, p ≠ .undeclared code) (h : min ≤ max) :
    numericRange min max p = .ok (NumericRange.signed p min max) := by
  unfold numericRange
  rw [if_neg (not_lt.2 h)]
  cases p with
  | none | optional | required => rfl
  | undeclared code => exact absurd rfl (hp code)

/-- **A numeric range matches exactly its interval.** It exists if its bounds are in order, and then it has a text
and matches the numerals of the integers between its bounds. -/
theorem numericRange_matches_interval (min max : ℤ) (p : Padding) (hp : ∀ code, p ≠ .undeclared code) :
    ((∃ t, numericRange min max p = .ok t) ↔ min ≤ max) ∧
    ∀ t, numericRange min max p = .ok t →
      (∃ x, t.rendered = .ok x) ∧ ∀ w, w ∈ t.language ↔ IsNumeralIn min max p w := by
  have hordered : ∀ {t}, numericRange min max p = .ok t → min ≤ max := by
    intro t ht
    by_contra hlt
    unfold numericRange at ht
    rw [if_pos (not_le.1 hlt)] at ht
    cases ht
  refine ⟨⟨fun ⟨_, ht⟩ => hordered ht, fun hle => ⟨_, numericRange_eq_ok hp hle⟩⟩, fun t ht => ⟨?_, fun w => ?_⟩⟩
  · have hdigital := numericRange_isDigital ht
    exact Graph.IsDigital.exists_render ⟨t, hdigital, hdigital.unfolds.2⟩
  · have hle := hordered ht
    cases ht.symm.trans (numericRange_eq_ok hp hle)
    exact NumericRange.mem_language_signed hle

theorem numericRange_matches_interval_widest :
    ∃ t, numericRange (-9223372036854775808) 9223372036854775807 .optional = .ok t ∧ ("-007" : Text) ∈ t.language ∧
      ∀ w, w ∈ t.language ↔ IsNumeralIn (-9223372036854775808) 9223372036854775807 .optional w := by
  obtain ⟨hexists, hmatches⟩ :=
    numericRange_matches_interval (-9223372036854775808) 9223372036854775807 .optional nofun
  obtain ⟨t, ht⟩ := hexists.2 (by decide)
  obtain ⟨-, hlanguage⟩ := hmatches t ht
  refine ⟨t, ht, (hlanguage _).2 ⟨true, [0, 0, 7], ?_, ?_, ?_, ?_, ?_, ?_, ?_⟩, hlanguage⟩ <;> decide +kernel

end RegexBuilder
