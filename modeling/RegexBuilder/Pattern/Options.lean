/-
# Inline options

Five options, each with a letter and a bit: `i` 1, `m` 2, `n` 4, `s` 8, `x` 16. A set of options is
a byte; the three bits without a letter are kept and never written.
-/

import RegexBuilder.Pattern.Argument

namespace RegexBuilder

/-- A set of inline options. -/
structure Options where
  bits : UInt8
deriving DecidableEq, Repr

namespace Options

/-- No option. -/
def empty : Options := ⟨0⟩

/-- The letter and the bit of each option, in the order in which they are written. -/
def table : List (Char × UInt8) := [('i', 1), ('m', 2), ('n', 4), ('s', 8), ('x', 16)]

/-- Options in either set. -/
def union (a b : Options) : Options := ⟨a.bits ||| b.bits⟩

/-- Options in both sets. -/
def inter (a b : Options) : Options := ⟨a.bits &&& b.bits⟩

/-- The letters of the options. -/
def letters (o : Options) : Text :=
  (table.filter fun e => o.bits &&& e.2 ≠ 0).map fun e => .char e.1

/-- The option that the byte `b` is the letter of. -/
def ofByte? (b : UInt8) : Option Options :=
  (table.find? fun e => e.1.toNat = b.toNat).map fun e => ⟨e.2⟩

/-- Adds the option of the next byte of `all`. -/
def addByte (all : Text) (o : Options) (b : UInt8) : Except ArgumentError Options :=
  match ofByte? b with
  | some e => .ok (o.union e)
  | none => .error (.optionLetter all (Char.ofNat b.toNat))

/-- The options that are named by letters such as `im`, in any order and any number of times. The
letters are read byte by byte. -/
def ofLetters (t : Text) : Except ArgumentError Options := t.bytes.foldlM (addByte t) empty

end Options
end RegexBuilder
