/-
# Package clauses

The package of a generated file is given as a text and stands behind the word `package`. It must be
one name; blanks and comments may stand around it, and one semicolon behind it on the same line.

The clause is written anew: one blank stands between what is on one line, and of several line breaks
in a row at most two are kept. A comment on a line of its own behind the name is set off by an empty
line.
-/

import RegexBuilder.Generate.Comment
import RegexBuilder.Generate.Name

namespace RegexBuilder
namespace Generate

/-- A comment and the lines that it begins and ends on. -/
structure PlacedComment where
  text : Text
  isBlock : Bool
  first : Nat
  last : Nat
deriving DecidableEq, Repr

/-- A name between comments. Lines are counted from that of the word `package`. -/
structure PackageClause where
  before : List PlacedComment
  name : Text
  line : Nat
  after : List PlacedComment
deriving DecidableEq, Repr

/-- How many lines the text ends. -/
def lineCount (t : Text) : Nat := t.count (.char '\n')

/-- A blank between two tokens, other than the end of a line. -/
def isTokenBlank (g : Glyph) : Bool := g.isChar fun c => c = ' ' || c = '\t' || c = '\r'

/-- The comments at the front of a text that begins on the line `line`, the line that they lead to,
and the rest; `none` if a block does not end. It takes at most `fuel` steps. -/
def comments? : (fuel line : Nat) → Text → Option (List PlacedComment × Nat × Text)
  | 0, line, t => some ([], line, t)
  | fuel + 1, line, t =>
    match t with
    | [] => some ([], line, [])
    | '/' :: '/' :: rest =>
      let body := rest.takeWhile (· ≠ .char '\n')
      (comments? fuel line (rest.drop body.length)).map fun (cs, l, rest) =>
        (⟨lineComment body, false, line, line⟩ :: cs, l, rest)
    | '/' :: '*' :: rest => do
      let (body, rest) ← blockRest? rest
      let last := line + lineCount body
      let (cs, l, rest) ← comments? fuel last rest
      return (⟨blockComment body, true, line, last⟩ :: cs, l, rest)
    | g :: rest =>
      if g = '\n' then comments? fuel (line + 1) rest
      else if isTokenBlank g then comments? fuel line rest
      else some ([], line, t)

/-- The comments up to the end of a text that follows the name on the line `line`. A semicolon or the end of the line
ends the clause; there is no second end. -/
def commentsToEnd? (line : Nat) (t : Text) : Option (List PlacedComment) := do
  let (cs, l, rest) ← comments? t.length line t
  match rest with
  | [] => return cs
  | g :: rest =>
    if g = ';' ∧ l = line then
      let (more, _, rest) ← comments? rest.length line rest
      if rest = [] then return cs ++ more else none
    else none

namespace PackageClause

/-- The clause that a text makes behind the word `package`. -/
def read? (t : Text) : Option PackageClause := do
  if !t.all isSourceGlyph then none
  let (before, line, rest) ← comments? t.length 0 t
  let name := rest.takeWhile isNamePart
  if !isName name then none
  let after ← commentsToEnd? line (rest.drop name.length)
  return ⟨before, name, line, after⟩

/-- `n` line breaks, but no more than two. -/
def breaks (n : Nat) : Text := List.replicate (min n 2) (.char '\n')

/-- The comments, each after what separates it from what ends on the line `line`. Before a first
comment on a line of its own there are `extra` line breaks more. -/
def commentsText (extra line : Nat) : List PlacedComment → Text
  | [] => []
  | c :: rest =>
    (if c.first = line then Text.ofString " " else breaks (c.first - line + extra)) ++ c.text ++
      commentsText 0 c.last rest

/-- What stands between the word `package`, or the last comment behind it, and the name. -/
def nameSeparator (c : PackageClause) : Text :=
  match c.before.getLast? with
  | none => if c.line = 0 then " " else breaks c.line
  | some b =>
    if b.isBlock && b.first = c.line then " " else breaks (c.line - b.last)

/-- The clause without the end of its last line. -/
def text (c : PackageClause) : Text :=
  "package" ++ commentsText 0 0 c.before ++ c.nameSeparator ++ c.name ++
    commentsText 1 c.line c.after

end PackageClause
end Generate
end RegexBuilder
