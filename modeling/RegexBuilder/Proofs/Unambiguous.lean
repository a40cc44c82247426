/-
# A numeric range is unambiguous

Every text that a numeric range matches is matched in one way, as its tree is sharp (`Tree.IsSharp`). Sequences
split by length: in each of them all children but one have texts of one length. Alternatives are told apart by what
they were split by: the sign, the value of the numeral, and within numerals of one length the first digit that is
not given.
-/

import RegexBuilder.Proofs.Derivation
import RegexBuilder.Proofs.Interval

namespace RegexBuilder
namespace NumericRange

open RegexBuilder.Tree (IsSharp HasLength Divides)

variable {P : Digits → Prop} {lo hi : Digits} {t : Tree} {ts : List Tree} {n l m : ℕ}

/-! ### Sharp pieces -/

/-- The texts are as long as their digits are many. -/
theorem hasLength_of_language (h : t.language = numerals P) (hP : ∀ ds, P ds → ds.length = n) : t.HasLength n := by
  rw [HasLength, h]
  rintro _ ⟨ds, -, hds, rfl⟩
  rw [numeral, List.length_map, hP ds hds]

theorem isSharp_literal (w : Text) : (Tree.literal w).IsSharp := .of_children trivial nofun

theorem isSharp_concat (h : (Tree.concat ts).SplitsOnce) (hts : ∀ t ∈ ts, t.IsSharp) : (Tree.concat ts).IsSharp :=
  .of_children h hts

/-- A sequence of two sharp trees that splits its texts in one way. -/
theorem isSharp_pair {u : Tree} (h : (Tree.concat [t, u]).SplitsOnce) (ht : t.IsSharp) (hu : u.IsSharp) :
    (Tree.concat [t, u]).IsSharp :=
  .of_children h (List.forall_mem_cons.2 ⟨ht, List.forall_mem_singleton.2 hu⟩)

/-- A repetition of single glyphs. -/
theorem isSharp_quantified (ht : t.IsSharp) (hlength : t.HasLength 1) (b : Bounds) : (Tree.quantified b t).IsSharp :=
  .of_children (Tree.splitsOnce_quantified hlength b) (List.forall_mem_singleton.2 ht)

theorem hasLength_anyDigit : anyDigit.HasLength 1 := hasLength_of_language language_anyDigit fun _ h => h

theorem isSharp_anyDigit : anyDigit.IsSharp := .of_children trivial nofun

theorem hasLength_digitRange (lo hi : ℤ) : (digitRange lo hi).HasLength 1 := by
  unfold digitRange
  split
  · exact hasLength_anyDigit
  · rintro _ ⟨-, r, hr, ends, hends, n, hn, rfl⟩
    rfl

/-- A digit is matched as a whole. -/
theorem isSharp_digitRange (lo hi : ℤ) : (digitRange lo hi).IsSharp := by
  unfold digitRange
  split
  · exact isSharp_anyDigit
  · exact .of_children trivial nofun

/-- **A piece with one bounded digit is sharp:** its children take a fixed number of glyphs each. -/
theorem isSharp_digitPattern (w : Text) (lo hi k : ℤ) : (digitPattern w lo hi k).IsSharp := by
  have hfree : (Tree.concat (if k > 0 then [anyDigit.exactly k] else [])).SplitsOnce ∧
      ∀ t ∈ (if k > 0 then [anyDigit.exactly k] else []), t.IsSharp := by
    split
    · exact ⟨Tree.splitsOnce_singleton _,
        List.forall_mem_singleton.2 (isSharp_quantified isSharp_anyDigit hasLength_anyDigit _)⟩
    · exact ⟨Tree.splitsOnce_nil, nofun⟩
  have hdigit := Tree.splitsOnce_cons (hasLength_digitRange lo hi) hfree.1
  have hsharp := List.forall_mem_cons.2 ⟨isSharp_digitRange lo hi, hfree.2⟩
  unfold digitPattern
  split
  · exact isSharp_concat hdigit hsharp
  · exact isSharp_concat (Tree.splitsOnce_cons (Tree.hasLength_literal w) hdigit)
      (List.forall_mem_cons.2 ⟨isSharp_literal w, hsharp⟩)

/-- Sharp trees with no text in common. -/
theorem isSharp_oneOf {L : Language Glyph} (h : Divides ts L) (hts : ∀ t ∈ ts, t.IsSharp) : (oneOf ts).IsSharp := by
  unfold oneOf
  split
  · exact hts _ (List.mem_singleton_self _)
  · exact .of_children h.apart hts

/-! ### Numerals of one length -/

/-- Numerals that differ in their first digit. -/
theorem isSharp_diverging {a b : ℕ} (hab : a < b) (hb : b ≤ 9) (hlength : lo.length = hi.length)
    (hlo : AreDigits lo) (hhi : AreDigits hi) : (diverging (a :: lo) (b :: hi)).IsSharp := by
  cases lo with
  | nil =>
    obtain rfl := List.eq_nil_of_length_eq_zero hlength.symm
    exact isSharp_digitRange a b
  | cons =>
    cases hi with
    | nil => cases hlength
    | cons =>
      exact isSharp_oneOf (divides_pieces hab hb hlength hlo hhi)
        (forall_mem_pieces (fun w _ _ k _ _ _ => isSharp_digitPattern w _ _ k) hb hlo hhi)

/-- **Numbers of one length between two bounds are sharp.** -/
theorem isSharp_sameLength (hle : l ≤ m) (hlength : (digitsOf l).length = (digitsOf m).length) :
    (sameLength (digitsOf l) (digitsOf m)).IsSharp := by
  obtain ⟨-, heq⟩ | ⟨lead, a, b, lo, hi, -, -, hab, hb, hrest, -, hlo, hhi, heq⟩ := sameLength_cases hle hlength
  · rw [heq]
    exact isSharp_literal _
  · have hdiverging := isSharp_diverging hab hb hrest hlo hhi
    rw [heq]
    split
    · exact hdiverging
    · exact isSharp_pair (Tree.splitsOnce_cons (Tree.hasLength_literal _) (Tree.splitsOnce_singleton _))
        (isSharp_literal _) hdiverging

/-- **Zeros before texts of one length** are all that is left of the text. -/
theorem isSharp_padded (p : Padding) (zeros : ℕ) (ht : t.IsSharp) (hlength : t.HasLength n) :
    (padded p zeros t).IsSharp := by
  have hzero : (Tree.char 48).HasLength 1 := by
    rintro _ rfl
    rfl
  have hsharp : (Tree.char 48).IsSharp := .of_children trivial nofun
  unfold padded
  split
  · exact ht
  · split
    · exact isSharp_pair (Tree.splitsOnce_pair hlength) (isSharp_quantified hsharp hzero _) ht
    · exact isSharp_pair (Tree.splitsOnce_cons (Tree.hasLength_literal _) (Tree.splitsOnce_singleton _))
        (isSharp_literal _) ht
    · exact ht

/-! ### Numbers -/

/-- Numbers of different lengths have different values, with any zeros before them. -/
theorem isSharp_unsigned (p : Padding) (width : ℕ) (hle : l ≤ m) : (unsigned p width l m).IsSharp := by
  have hlength := length_digitsOf_le hle
  refine isSharp_oneOf (divides_byLength p width _ hle (by omega))
    (forall_mem_byLength p width _ (fun zeros _ _ hle hlength => ?_) hle (by omega))
  exact isSharp_padded p zeros (isSharp_sameLength hle hlength)
    (hasLength_of_language (language_sameLength hle hlength) fun _ h => h.1)

theorem isSharp_minus (ht : t.IsSharp) : (Tree.concat [.literal "-", t]).IsSharp :=
  isSharp_pair (Tree.splitsOnce_cons (Tree.hasLength_literal _) (Tree.splitsOnce_singleton _)) (isSharp_literal _) ht

/-- No numeral of a number begins with a minus sign. -/
theorem disjoint_minus (u : Tree) (h : t.language = numerals P) :
    Disjoint (Tree.concat [.literal "-", u]).language t.language := by
  have hdigit : ∀ d ≤ 9, Nat.digitChar d ≠ '-' := by decide
  refine Set.disjoint_left.2 fun w hw hw' => ?_
  obtain ⟨v, -, rfl⟩ := mem_language_minus.1 hw
  rw [h] at hw'
  obtain ⟨ds, hds, -, heq⟩ := hw'
  cases ds with
  | nil => cases heq
  | cons d ds =>
    obtain ⟨hfirst, -⟩ := List.cons.inj heq
    exact hdigit d (hds d List.mem_cons_self) (Glyph.char.inj hfirst).symm

/-- **The tree of a range is sharp.** -/
theorem isSharp_signed (p : Padding) {min max : ℤ} (h : min ≤ max) : (signed p min max).IsSharp := by
  unfold signed
  split
  · exact isSharp_minus (isSharp_unsigned p _ (by omega))
  · refine .of_children ?_ ?_
    · exact List.pairwise_pair.2 (disjoint_minus _ (language_unsigned p _ (Nat.zero_le _)))
    · exact List.forall_mem_cons.2 ⟨isSharp_minus (isSharp_unsigned p _ (Nat.zero_le _)),
        List.forall_mem_singleton.2 (isSharp_unsigned p _ (Nat.zero_le _))⟩
  · exact isSharp_unsigned p _ (Int.ofNat_le.1 h)
  · exact isSharp_literal _

end NumericRange

/-- **A numeric range is unambiguous.** Let its bounds be in order. Then it has a tree, and each text that the tree
matches has one derivation in it. In every alternation of the tree no two branches have a text in common, and every
repetition of zeros with a piece behind it splits a text in one way into zeros and a text of the piece. -/
theorem numericRange_unambiguous (min max : ℤ) (p : Padding) (hp : ∀ code, p ≠ .undeclared code) (h : min ≤ max) :
    ∃ t, numericRange min max p = .ok t ∧ (∀ w ∈ t.language, ∃! d, t.Derives w d) ∧
      (∀ ts, t.Part (.alternation ts) → ts.Pairwise fun t u => Disjoint t.language u.language) ∧
      ∀ zeros piece, t.Part (.concat [.repeated (.char 48) 0 zeros, piece]) →
        ∀ w ∈ (Tree.concat [.repeated (.char 48) 0 zeros, piece]).language,
          ∃! uv : Text × Text, uv.1 ∈ (Tree.repeated (.char 48) 0 zeros).language ∧ uv.2 ∈ piece.language ∧
            uv.1 ++ uv.2 = w := by
  have hsharp := NumericRange.isSharp_signed p h
  refine ⟨_, numericRange_eq_ok hp h, fun w hw => Tree.existsUnique_derives hsharp hw, fun ts hts => hsharp _ hts, ?_⟩
  intro zeros piece hpart w hw
  rw [Tree.language, Tree.sequenceLanguage_pair, Language.mem_mul] at hw
  obtain ⟨u, hu, v, hv, rfl⟩ := hw
  refine ⟨(u, v), ⟨hu, hv, rfl⟩, ?_⟩
  rintro ⟨u', v'⟩ ⟨hu', hv', huv⟩
  have hsplit := hsharp _ hpart [u', v'] [u, v] (.cons hu' (.cons hv' .nil)) (.cons hu (.cons hv .nil))
    (by simpa using huv)
  cases hsplit
  rfl

theorem numericRange_unambiguous_padded :
    ∃ t, numericRange (-305) 1042 .optional = .ok t ∧ ("-0007" : Text) ∈ t.language ∧
      (∃! d, t.Derives "-0007" d) ∧
      ∀ ts, t.Part (.alternation ts) → ts.Pairwise fun t u => Disjoint t.language u.language := by
  have hle : (-305 : ℤ) ≤ 1042 := by decide
  obtain ⟨t, ht, hunique, hapart, -⟩ := numericRange_unambiguous (-305) 1042 .optional nofun hle
  have hmem : ("-0007" : Text) ∈ t.language := by
    cases ht
    refine (NumericRange.mem_language_signed hle).2 ⟨true, [0, 0, 0, 7], ?_, ?_, ?_, ?_, ?_, ?_, ?_⟩ <;> decide +kernel
  exact ⟨t, ht, hmem, hunique _ hmem, hapart⟩

end RegexBuilder
