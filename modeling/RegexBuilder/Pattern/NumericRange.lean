/-
# Numeric ranges

A tree that matches the decimal numerals of the integers from `min` to `max`. An interval of numbers
is split until each piece is a choice of one digit after a fixed lead, with free digits behind it:

* by sign, then by the number of digits;
* numerals of one length by their common lead;
* the rest into the numerals from the lower bound up, a middle in which only the first digit is
  bounded, and the numerals down to the upper bound.

Numerals are lists of digits, the highest first.
-/

import RegexBuilder.Pattern.Tree

namespace RegexBuilder

/-- Whether a numeral may or must be filled up with zeros to the width of the widest bound. A code
outside the three is kept. -/
inductive Padding where
  | none | optional | required
  | undeclared (code : Int)
deriving DecidableEq, Repr

namespace Padding

/-- The policy with the given code. -/
def ofCode : Int → Padding
  | 0 => none
  | 1 => optional
  | 2 => required
  | n => undeclared n

/-- The code of the policy. -/
def code : Padding → Int
  | none => 0
  | optional => 1
  | required => 2
  | undeclared n => n

/-- The name of the policy. -/
def name : Padding → Text
  | none => "none"
  | optional => "optional"
  | required => "required"
  | undeclared n => "LeadingZeros(" ++ Text.ofInt n ++ ")"

/-- The policy with the given name; no name means no zeros. -/
def ofName (word : Text) : Except ArgumentError Padding :=
  if word = [] ∨ word = ("none" : Text) then .ok none
  else if word = ("optional" : Text) then .ok optional
  else if word = ("required" : Text) then .ok required
  else .error (.paddingWord word)

end Padding

/-- Why there is no pattern for a numeric range. -/
inductive NumericError where
  | inverted (min max : Int)
  | argument (e : ArgumentError)
deriving DecidableEq, Repr

/-- The message for the cause. -/
def NumericError.message : NumericError → Text
  | inverted min max =>
    "invalid pattern: numeric range minimum " ++ Text.ofInt min ++
      " is greater than maximum " ++ Text.ofInt max
  | argument e => e.message

namespace NumericRange

/-- The digits of a number, the highest first. -/
abbrev Digits := List Nat

/-- The decimal digits of `n`. -/
def digitsOf (n : Nat) : Digits := (Nat.toDigits 10 n).map fun c => c.toNat - 48

/-- The numeral of the digits. -/
def numeral (ds : Digits) : Text := ds.map fun d => .char (Nat.digitChar d)

/-- Any digit. -/
def anyDigit : Tree := .leaf (.charClass { kind := .digit })

/-- One digit from `lo` to `hi`. -/
def digitRange (lo hi : Int) : Tree :=
  if lo = 0 ∧ hi = 9 then anyDigit
  else .set { ranges := [⟨.fresh (.character (.plain (Int32.ofInt (48 + lo)))),
                         .fresh (.character (.plain (Int32.ofInt (48 + hi))))⟩] }

/-- `lead`, one digit from `lo` to `hi`, and `trailing` more digits. -/
def digitPattern (lead : Text) (lo hi trailing : Int) : Tree :=
  .concat ((if lead = [] then [] else [.literal lead]) ++ [digitRange lo hi] ++
    (if trailing > 0 then [.exactly anyDigit trailing] else []))

/-- The numerals `lead ++ ds` with `ds ≥ rest`, where `rest` is not all zeros. -/
def upFrom : (lead rest : Digits) → List Tree
  | _, [] => []
  | lead, d :: rest =>
    if rest.all (· = 0) then [digitPattern (numeral lead) d 9 rest.length]
    else upFrom (lead ++ [d]) rest ++
      (if d < 9 then [digitPattern (numeral lead) (d + 1) 9 rest.length] else [])

/-- The numerals `lead ++ ds` with `ds ≤ rest`, where `rest` is not all nines. -/
def downTo : (lead rest : Digits) → List Tree
  | _, [] => []
  | lead, d :: rest =>
    if rest.all (· = 9) then [digitPattern (numeral lead) 0 d rest.length]
    else (if d > 0 then [digitPattern (numeral lead) 0 (d - 1) rest.length] else []) ++
      downTo (lead ++ [d]) rest

/-- The pieces of the interval from `first :: loRest` to `last :: hiRest`, where `first < last`. -/
def pieces (first : Nat) (loRest : Digits) (last : Nat) (hiRest : Digits) : List Tree :=
  let fromBelow := loRest.all (· = 0)
  let toAbove := hiRest.all (· = 9)
  let lo : Int := if fromBelow then first else first + 1
  let hi : Int := if toAbove then last else last - 1
  (if fromBelow then [] else upFrom [first] loRest) ++
  (if lo ≤ hi then [digitPattern [] lo hi loRest.length] else []) ++
  (if toAbove then [] else downTo [last] hiRest)

/-- One of several trees. -/
def oneOf : List Tree → Tree
  | [t] => t
  | ts => .alternation ts

/-- The numerals from `lo` to `hi`, which have one length and differ in their first digit. -/
def diverging : (lo hi : Digits) → Tree
  | [first], [last] => digitRange first last
  | first :: loRest, last :: hiRest => oneOf (pieces first loRest last hiRest)
  | _, _ => .literal []

/-- The longest common lead of two numerals, and what follows it in each. -/
def splitCommon : (lo hi : Digits) → Digits × Digits × Digits
  | a :: lo, b :: hi =>
    if a = b then
      let (lead, loRest, hiRest) := splitCommon lo hi
      (a :: lead, loRest, hiRest)
    else ([], a :: lo, b :: hi)
  | lo, hi => ([], lo, hi)

/-- The numerals from `lo` to `hi`, which have one length. -/
def sameLength (lo hi : Digits) : Tree :=
  if lo = hi then .literal (numeral lo)
  else match splitCommon lo hi with
    | ([], lo, hi) => diverging lo hi
    | (lead, lo, hi) => .concat [.literal (numeral lead), diverging lo hi]

/-- `t` with up to `zeros` zeros before it. -/
def padded (p : Padding) (zeros : Nat) (t : Tree) : Tree :=
  if zeros = 0 then t
  else match p with
    | .optional => .concat [.repeated (.char 48) 0 zeros, t]
    | .required => .concat [.literal (List.replicate zeros '0'), t]
    | _ => t

/-- The numerals from `lo` to `hi`, where `hi` has `gap` more digits than `lo`, piece by piece for
each number of digits. -/
def byLength (p : Padding) (width : Nat) (hi : Digits) : (gap : Nat) → (lo : Digits) → List Tree
  | 0, lo => [padded p (width - hi.length) (sameLength lo hi)]
  | gap + 1, lo =>
    padded p (width - lo.length) (sameLength lo (List.replicate lo.length 9)) ::
      byLength p width hi gap (1 :: List.replicate lo.length 0)

/-- The numerals of the natural numbers from `lo` to `hi`, filled up to `width`. -/
def unsigned (p : Padding) (width lo hi : Nat) : Tree :=
  oneOf (byLength p width (digitsOf hi) ((digitsOf hi).length - (digitsOf lo).length) (digitsOf lo))

/-- The number of decimal digits of `n`. -/
def widthOf (n : Nat) : Nat := (digitsOf n).length

/-- The numerals from `min` to `max`, where `min ≤ max`. Below zero they have a leading `-`, and
`-0` counts as zero. -/
def signed (p : Padding) : (min max : Int) → Tree
  | .negSucc m, .negSucc n =>
    .concat [.literal "-", unsigned p (widthOf (m + 1)) (n + 1) (m + 1)]
  | .negSucc m, .ofNat n =>
    let width := Nat.max (widthOf (m + 1)) (widthOf n)
    .alternation [.concat [.literal "-", unsigned p width 0 (m + 1)], unsigned p width 0 n]
  | .ofNat m, .ofNat n => unsigned p (widthOf n) m n
  | .ofNat _, .negSucc _ => .literal []

end NumericRange

/-- A tree that matches the decimal numerals of the integers from `min` to `max`. -/
def numericRange (min max : Int) (p : Padding) : Except NumericError Tree :=
  if max < min then .error (.inverted min max)
  else match p with
    | .undeclared _ => .error (.argument (.paddingCode p.name))
    | _ => .ok (NumericRange.signed p min max)

end RegexBuilder
