/-
# Characters and character classes

A character has a number, and a spelling that decides how it is written.

| spelling | written | in a set |
| --- | --- | --- |
| `plain` | the character, `\` before one of `$()*+.?[\]^{|}` | `\` before one of `]^-\` |
| `null` … `verticalTab` | `\0 \a \f \n \r \t \v` | the same |
| `backspace` | `[\b]` | `\b` |
| `controlLetter` | `\cX` | the same |
| `hexCode`, `octalCode`, `unicodeCode` | `\xHH`, `\OOO`, `\uHHHH` | the same |

Numbers are 32 bits wide and signed. One that is no Unicode scalar value is written as `U+FFFD`.
-/

import RegexBuilder.Pattern.Argument

namespace RegexBuilder

/-- A single character in one spelling. Only a plain one can have any number; the others hold what
their spelling can write. -/
inductive Character where
  | plain (n : Int32)
  | null | bell
  /-- Written `[\b]` outside a set, where `\b` is an anchor. -/
  | backspace
  | formFeed | newLine | carriageReturn | tab | verticalTab
  /-- The control character of the letter that is `n` letters after `A`. -/
  | controlLetter (n : Fin 26)
  | hexCode (n : UInt8)
  | octalCode (n : Fin 512)
  | unicodeCode (n : UInt16)
deriving DecidableEq, Repr

/-- The characters that are escaped outside a set. -/
def literalMeta : List Char := "$()*+.?[\\]^\x7b|\x7d".toList

/-- The characters that are escaped inside a set. -/
def setMeta : List Char := "]^-\\".toList

/-- `c`, with a backslash before it if it is one of `special`. -/
def escapeChar (special : List Char) (c : Char) : Text :=
  if c ∈ special then ['\\', c] else [c]

/-- The text in which every character stands for itself; a stray byte becomes `U+FFFD`. -/
def escapeLiteral (t : Text) : Text := t.flatMap fun g => escapeChar literalMeta g.read

namespace Character

/-- The control character of an ASCII letter: `\cM` has the number of `M` less 64. -/
def control (letter : Int32) : Except ArgumentError Character :=
  if letter ≤ 127 ∧ (Glyph.ofCode letter).isChar Char.isAlpha then
    .ok (.controlLetter (Fin.ofNat 26 ((Glyph.ofCode letter).read.toUpper.toNat - 65)))
  else .error (.control letter)

/-- `\xHH` from two hexadecimal digits. -/
def hex (digits : Text) : Except ArgumentError Character :=
  match digits.length, Text.ofDigits? 16 digits with
  | 2, some n => .ok (.hexCode (UInt8.ofNat n))
  | _, _ => .error (.hex digits)

/-- `\OOO` from two or three octal digits. -/
def octal (digits : Text) : Except ArgumentError Character :=
  match digits.length, Text.ofDigits? 8 digits with
  | 2, some n => .ok (.octalCode (Fin.ofNat 512 n))
  | 3, some n => .ok (.octalCode (Fin.ofNat 512 n))
  | _, _ => .error (.octal digits)

/-- `\uHHHH` from four hexadecimal digits. -/
def unicode (digits : Text) : Except ArgumentError Character :=
  match digits.length, Text.ofDigits? 16 digits with
  | 4, some n => .ok (.unicodeCode (UInt16.ofNat n))
  | _, _ => .error (.unicode digits)

/-- The number of the character. -/
def value : Character → Int32
  | plain n => n
  | null => 0
  | bell => 7
  | backspace => 8
  | formFeed => 12
  | newLine => 10
  | carriageReturn => 13
  | tab => 9
  | verticalTab => 11
  | controlLetter n => Int32.ofNat (n + 1)
  | hexCode n => Int32.ofNat n.toNat
  | octalCode n => Int32.ofNat n
  | unicodeCode n => Int32.ofNat n.toNat

/-- How the character is written, inside or outside a set. -/
def form (inSet : Bool) : Character → Text
  | plain n => escapeChar (if inSet then setMeta else literalMeta) (Glyph.ofCode n).read
  | null => "\\0"
  | bell => "\\a"
  | backspace => if inSet then "\\b" else "[\\b]"
  | formFeed => "\\f"
  | newLine => "\\n"
  | carriageReturn => "\\r"
  | tab => "\\t"
  | verticalTab => "\\v"
  | controlLetter n => "\\c" ++ [Glyph.char (Char.ofNat (n + 65))]
  | hexCode n => "\\x" ++ Text.ofNatBase 16 2 n.toNat
  | octalCode n => "\\" ++ Text.ofNatBase 8 3 n
  | unicodeCode n => "\\u" ++ Text.ofNatBase 16 4 n.toNat

end Character

/-- The predefined classes. A code outside the eight is kept, and written as nothing. -/
inductive ClassKind where
  | word | notWord | digit | notDigit | space | notSpace | category | notCategory
  | undeclared (code : Int)
deriving DecidableEq, Repr

namespace ClassKind

/-- The kind with the given code. -/
def ofCode : Int → ClassKind
  | 0 => word
  | 1 => notWord
  | 2 => digit
  | 3 => notDigit
  | 4 => space
  | 5 => notSpace
  | 6 => category
  | 7 => notCategory
  | n => undeclared n

/-- The code of the kind. -/
def code : ClassKind → Int
  | word => 0
  | notWord => 1
  | digit => 2
  | notDigit => 3
  | space => 4
  | notSpace => 5
  | category => 6
  | notCategory => 7
  | undeclared n => n

/-- No code is lost. -/
theorem code_ofCode (n : Int) : (ofCode n).code = n := by
  unfold ofCode; split <;> rfl

end ClassKind

/-- A predefined class such as `\d`; the name is that of a category or block. -/
structure CharClass where
  kind : ClassKind
  name : Text := []
deriving DecidableEq, Repr

/-- A category or block name: ASCII letters, digits, `-` and `_`. -/
def isCategoryGlyph (g : Glyph) : Bool :=
  g.isChar fun c => c.isAlphanum || c = '-' || c = '_'

/-- Accepts a category or block name. -/
def checkCategory (name : Text) : Except ArgumentError Unit :=
  if name = [] then .error .emptyCategory
  else if name.all isCategoryGlyph then .ok ()
  else .error (.badCategory name)

namespace CharClass

/-- The characters of a category or block. -/
def inCategory (name : Text) : Except ArgumentError CharClass :=
  (checkCategory name).map fun _ => ⟨.category, name⟩

/-- The characters outside a category or block. -/
def notInCategory (name : Text) : Except ArgumentError CharClass :=
  (checkCategory name).map fun _ => ⟨.notCategory, name⟩

/-- How the class is written. -/
def form (c : CharClass) : Text :=
  match c.kind with
  | .word => "\\w"
  | .notWord => "\\W"
  | .digit => "\\d"
  | .notDigit => "\\D"
  | .space => "\\s"
  | .notSpace => "\\S"
  | .category => "\\p\x7b" ++ c.name ++ "\x7d"
  | .notCategory => "\\P\x7b" ++ c.name ++ "\x7d"
  | .undeclared _ => []

/-- A category without a name, which cannot stand outside a set. -/
def isNameless (c : CharClass) : Bool :=
  (c.kind = .category || c.kind = .notCategory) && c.name.all (Glyph.isChar isBlank)

end CharClass

end RegexBuilder
