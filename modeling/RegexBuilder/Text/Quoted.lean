/-
# Quoted texts

A text between quotation marks, in which every glyph that could be misread is written as an escape:

| glyph | written |
| --- | --- |
| the quotation mark, `\` | `\` and the glyph |
| a printable character | as it is |
| `U+0007` … `U+000D` | `\a` `\b` `\t` `\n` `\v` `\f` `\r` |
| another control below `U+0080` | `\xhh` |
| another character below `U+10000` | `\uhhhh` |
| any other character | `\Uhhhhhhhh` |
| a stray byte | `\xhh` |
-/

import RegexBuilder.Text.Printable

namespace RegexBuilder
namespace Text

/-- `n` in lower-case hexadecimal digits, at least `width` of them. -/
def lowerHex (width n : Nat) : Text := padLeft width '0' ((Nat.toDigits 16 n).map .char)

/-- The letter that follows the backslash in the short escape of a control character. -/
def shortEscape? (c : Char) : Option Char :=
  match c.toNat with
  | 7 => some 'a'
  | 8 => some 'b'
  | 9 => some 't'
  | 10 => some 'n'
  | 11 => some 'v'
  | 12 => some 'f'
  | 13 => some 'r'
  | _ => none

/-- How the character `c` is written between two `mark`s. -/
def quoteChar (mark c : Char) : Text :=
  if c = mark ∨ c = '\\' then ['\\', c]
  else if isPrintable c then [c]
  else match shortEscape? c with
    | some e => ['\\', e]
    | none =>
      if c.toNat < 0x80 then "\\x" ++ lowerHex 2 c.toNat
      else if c.toNat < 0x10000 then "\\u" ++ lowerHex 4 c.toNat
      else "\\U" ++ lowerHex 8 c.toNat

/-- How a glyph is written between two `mark`s. -/
def quoteGlyph (mark : Char) : Glyph → Text
  | .char c => quoteChar mark c
  | .stray b => "\\x" ++ lowerHex 2 b.toNat

/-- The text between double quotation marks. -/
def quoted (t : Text) : Text := "\"" ++ t.canonical.flatMap (quoteGlyph '"') ++ "\""

/-- The character between single quotation marks. -/
def quotedChar (c : Char) : Text := "'" ++ quoteChar '\'' c ++ "'"

end Text
end RegexBuilder
