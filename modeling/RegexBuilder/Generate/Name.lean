/-
# Names in generated code

Each definition becomes a variable and a constant, both exported. The variable is called like the
definition with a capital letter in front, and the constant has `Pattern` behind that.
-/

import RegexBuilder.Text.Letter
import RegexBuilder.Text.DecimalDigit

namespace RegexBuilder
namespace Generate

/-- The text with bit 5 of its first byte cleared, which makes a capital of a small ASCII letter. -/
def upperFirst (t : Text) : Text :=
  match t.bytes with
  | [] => []
  | b :: rest => .char (Char.ofNat (b &&& 0xDF).toNat) :: Text.ofBytes rest

/-- The variable of the definition `name`. A name that does not begin with an ASCII letter gets an
`X` in front. -/
def identifier (name : Text) : Text :=
  match name with
  | .char c :: rest => if c.isAlpha then .char c.toUpper :: rest else 'X' :: name
  | _ => 'X' :: name

/-- The constant of the definition `name`. -/
def patternConstant (name : Text) : Text := identifier name ++ "Pattern"

/-- The words that no name can be. -/
def keywords : List Text := [
  "break", "case", "chan", "const", "continue", "default", "defer", "else", "fallthrough", "for",
  "func", "go", "goto", "if", "import", "interface", "map", "package", "range", "return", "select",
  "struct", "switch", "type", "var"].map Text.ofString

/-- A letter of any script, or the underscore. -/
def isNameStart (g : Glyph) : Bool := g.isChar fun c => isLetter c || c = '_'

/-- A letter or a decimal digit of any script, or the underscore. -/
def isNamePart (g : Glyph) : Bool := isNameStart g || g.isChar isDecimalDigit

/-- A name of the generated language: letters, underscores and decimal digits, no digit in front,
and no keyword. -/
def isName (t : Text) : Bool :=
  match t with
  | [] => false
  | g :: rest =>
    isNameStart g && rest.all isNamePart && !keywords.contains t

end Generate
end RegexBuilder
