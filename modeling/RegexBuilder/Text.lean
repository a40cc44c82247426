/-
# Texts: characters and stray bytes

A text is what a byte string looks like when it is read as UTF-8: a list of characters, in which a
byte that belongs to no character stands for itself.

| glyph | bytes | read as a character |
| --- | --- | --- |
| `char c` | the UTF-8 form of `c` | `c` |
| `stray b` | `b` alone | `U+FFFD` |

Texts that come from outside are *canonical* (`Text.ofBytes` made them). Joining two texts may put
the stray halves of a character side by side; `Text.canonical` reads such a text again.
-/

namespace RegexBuilder

/-- One element of a text: a character, or a byte that is part of no character. -/
inductive Glyph where
  | char (c : Char)
  | stray (b : UInt8)
deriving DecidableEq, Repr, Inhabited

instance : Coe Char Glyph := ⟨.char⟩

/-- A text is a list of glyphs. -/
abbrev Text := List Glyph

instance : LawfulBEq Text := inferInstance

/-- `U+FFFD`, which stands in for whatever is not a character. -/
def replacement : Char := '�'

namespace Glyph

/-- The character that the glyph is read as. -/
def read : Glyph → Char
  | char c => c
  | stray _ => replacement

/-- The bytes that the glyph is written as. -/
def bytes : Glyph → List UInt8
  | char c => String.utf8EncodeChar c
  | stray b => [b]

/-- The glyph is a character that satisfies `p`. -/
def isChar (p : Char → Bool) : Glyph → Bool
  | char c => p c
  | stray _ => false

/-- One of the ten ASCII digits. -/
def isDigit (g : Glyph) : Bool := g.isChar Char.isDigit

end Glyph

namespace Text

/-- The text of a string. -/
def ofString (s : String) : Text := s.toList.map .char

instance : Coe String Text := ⟨ofString⟩

/-- `n` in decimal digits. -/
def ofNat (n : Nat) : Text := (Nat.toDigits 10 n).map .char

/-- `n` in decimal digits, with a leading `-` if it is negative. -/
def ofInt : Int → Text
  | .ofNat n => ofNat n
  | .negSucc n => "-" ++ ofNat (n + 1)

/-- `t` with the glyph `g` put in front until it has `width` glyphs. -/
def padLeft (width : Nat) (g : Glyph) (t : Text) : Text :=
  List.replicate (width - t.length) g ++ t

/-- `n` in base `base ≤ 16` with upper-case digits, at least `width` of them. -/
def ofNatBase (base width n : Nat) : Text :=
  padLeft width '0' ((Nat.toDigits base n).map fun c => .char c.toUpper)

/-- The value of the digit `c`, also for `a` … `f` and `A` … `F`. -/
def digitValue? (c : Char) : Option Nat :=
  if c.isDigit then some (c.toNat - 48)
  else if 'a' ≤ c ∧ c ≤ 'f' then some (c.toNat - 87)
  else if 'A' ≤ c ∧ c ≤ 'F' then some (c.toNat - 55)
  else none

/-- One more digit `g` after the digits of value `n`, in base `base`. -/
def addDigit (base n : Nat) : Glyph → Option Nat
  | .char c => do
    let d ← digitValue? c
    if d < base then some (n * base + d) else none
  | .stray _ => none

/-- The number that the digits `t` are in base `base`. -/
def ofDigits? (base : Nat) (t : Text) : Option Nat := t.foldlM (addDigit base) 0

/-- The parts, with `sep` between any two. -/
def join (sep : Text) (parts : List Text) : Text := sep.intercalate parts

/-- The characters that the text is read as. -/
def chars (t : Text) : List Char := t.map Glyph.read

/-- The bytes of the text. -/
def bytes (t : Text) : List UInt8 := t.flatMap Glyph.bytes

/-- The six value bits of a continuation byte `10xxxxxx`. -/
def continuation? (b : UInt8) : Option Nat :=
  if b.toNat / 64 = 2 then some (b.toNat % 64) else none

/-- The character with number `n`, if `n` is a Unicode scalar value of at least `least`. -/
def scalar? (least n : Nat) : Option Char :=
  if least ≤ n ∧ n.isValidChar then some (Char.ofNat n) else none

/-- The character that the bytes begin with and the number of bytes that it takes; only the shortest form counts. -/
def leadingChar? : List UInt8 → Option (Char × Nat)
  | [] => none
  | a :: rest =>
    let n := a.toNat
    if n < 0x80 then (scalar? 0 n).map (·, 1)
    else if n / 32 = 6 then
      match rest with
      | b :: _ => do
        let x ← continuation? b
        let c ← scalar? 0x80 (n % 32 * 64 + x)
        pure (c, 2)
      | _ => none
    else if n / 16 = 14 then
      match rest with
      | b :: c :: _ => do
        let x ← continuation? b
        let y ← continuation? c
        let c ← scalar? 0x800 ((n % 16 * 64 + x) * 64 + y)
        pure (c, 3)
      | _ => none
    else if n / 8 = 30 then
      match rest with
      | b :: c :: d :: _ => do
        let x ← continuation? b
        let y ← continuation? c
        let z ← continuation? d
        let c ← scalar? 0x10000 (((n % 8 * 64 + x) * 64 + y) * 64 + z)
        pure (c, 4)
      | _ => none
    else none

/-- The text of the bytes after the first `skip`. -/
def ofBytesAfter : Nat → List UInt8 → Text
  | _, [] => []
  | skip + 1, _ :: rest => ofBytesAfter skip rest
  | 0, b :: rest =>
    match leadingChar? (b :: rest) with
    | some (c, width) => .char c :: ofBytesAfter (width - 1) rest
    | none => .stray b :: ofBytesAfter 0 rest

/-- The text that the bytes are read as: where no character begins, one byte is stray. -/
def ofBytes (bs : List UInt8) : Text := ofBytesAfter 0 bs

/-- The text as it is read from its own bytes. -/
def canonical (t : Text) : Text := ofBytes t.bytes

/-- The text as a string, if its bytes are valid UTF-8. -/
def toString? (t : Text) : Option String :=
  if t.canonical.all (Glyph.isChar fun _ => true) then some (String.ofList t.canonical.chars)
  else none

/-- The text starts with `p`. -/
def startsWith (t p : Text) : Bool := p.isPrefixOf t

/-- `t` without its last part `s`, or `t` itself if it does not end in `s`. -/
def dropEnding (t s : Text) : Text :=
  if s.isSuffixOf t then t.take (t.length - s.length) else t

/-- The parts between the glyphs `g`; there is one more of them than there are `g`. -/
def split (g : Glyph) : Text → List Text
  | [] => [[]]
  | h :: rest =>
    if h = g then [] :: split g rest
    else
      match split g rest with
      | [] => [[h]]
      | p :: ps => (h :: p) :: ps

/-- What stands before the first `g` and, if there is one, what stands after it. -/
def cut (g : Glyph) : Text → Text × Option Text
  | [] => ([], none)
  | h :: t =>
    if h = g then ([], some t)
    else (h :: (cut g t).1, (cut g t).2)

end Text

/-- The glyph for the number `r`: its character, or `U+FFFD` if `r` is no Unicode scalar value. -/
def Glyph.ofCode (r : Int32) : Glyph :=
  if 0 ≤ r.toInt ∧ r.toInt.toNat.isValidChar then .char (Char.ofNat r.toInt.toNat)
  else .char replacement

/-- The number of a character. -/
def Glyph.code (g : Glyph) : Int32 := Int32.ofNat g.read.toNat

end RegexBuilder
