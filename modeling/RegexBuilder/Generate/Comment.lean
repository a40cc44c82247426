/-
# Comments in generated files

A comment is a line from `//` on or a block between `/*` and `*/`. Blanks at the end of a line are
dropped, and so are carriage returns, unless that would end a block. The lines of a block keep their
places relative to each other: the margin that they share is taken away, up to what the first line
shows to be wanted.
-/

import RegexBuilder.Text.Runs

namespace RegexBuilder
namespace Generate

/-- The glyph may stand in a generated file: a character other than NUL and the byte order mark. -/
def isSourceGlyph (g : Glyph) : Bool := g.isChar fun c => c != '\x00' && c != '\uFEFF'

/-- The text without its carriage returns. -/
def dropReturns (t : Text) : Text := t.filter (· ≠ .char '\r')

/-- The text of a block without its carriage returns, but for those that keep a star and a slash apart. A star stands
right before the text if `star` is true. -/
def dropBlockReturns : (star : Bool) → Text → Text
  | _, [] => []
  | star, g :: rest =>
    if g = '\r' ∧ ¬(star ∧ rest.head? = some (.char '/')) then dropBlockReturns star rest
    else g :: dropBlockReturns (g = '*') rest

/-- The text without the glyphs at its end that satisfy `p`. -/
def dropEndWhile (p : Glyph → Bool) (t : Text) : Text := (t.reverse.dropWhile p).reverse

/-- The text without the blanks at its end. -/
def trimEnd (t : Text) : Text := dropEndWhile (·.isChar isBlank) t

/-- What stands before the first end of a block, and what follows it. -/
def blockRest? : Text → Option (Text × Text)
  | [] => none
  | '*' :: '/' :: rest => some ([], rest)
  | g :: rest => (blockRest? rest).map fun p => (g :: p.1, p.2)

/-- A comment from `//` to the end of its line. -/
def lineComment (body : Text) : Text := trimEnd ("//" ++ dropReturns body)

/-! ## Blocks -/

/-- A blank or a control character of ASCII. -/
def isMarginBlank (g : Glyph) : Bool := g.isChar (· ≤ ' ')

/-- The blanks and stars that two lines begin with alike. -/
def sharedMargin : Text → Text → Text
  | g :: s, h :: t =>
    if g = h ∧ (isMarginBlank g ∨ g = '*') then g :: sharedMargin s t else []
  | _, _ => []

/-- The margin that the inner lines of a block share; if all of them are blank, that of the last
line. -/
def commonMargin (inner : List Text) (last : Text) : Text :=
  match inner.filter (fun l => !l.all isMarginBlank) with
  | [] => sharedMargin last last
  | l :: rest => rest.foldl sharedMargin (sharedMargin l l)

/-- The margin without the indentation that the text of the block keeps: up to three blanks or a tab behind `/*` alone,
otherwise what puts the text below that of the first line. -/
def outerMargin (first margin : Text) : Text :=
  let start := first.drop 2
  if start.all isMarginBlank then
    let kept := (margin.reverse.takeWhile (· = .char ' ')).length
    if kept = 0 then margin.dropEnding "\t" else margin.take (margin.length - min kept 3)
  else
    let blanks := start.takeWhile isMarginBlank
    margin.dropEnding (if blanks.head? = some (.char '\t') then blanks else "  " ++ blanks)

/-- The lines of a block after its first one, where `margin` is the margin they share. A last line
that is only `*/` is put below the `/*`, or below a row of stars. -/
def alignLines (first : Text) (inner : List Text) (last margin : Text) : List Text :=
  let inner := inner.map fun l => if l.all isMarginBlank then [] else l
  let stars := margin.contains (.char '*')
  let outer :=
    if stars then Text.dropEnding (margin.takeWhile (· ≠ .char '*')) " "
    else outerMargin first margin
  if (last.dropEnding "*/").all isMarginBlank then
    inner.map (·.drop outer.length) ++ [Text.ofString (if stars then " */" else "*/")]
  else
    (inner ++ [last]).map (·.drop (sharedMargin outer last).length)

/-- A comment between `/*` and `*/`. -/
def blockComment (body : Text) : Text :=
  match ("/*" ++ dropBlockReturns false body ++ "*/").split '\n' with
  | [] => []
  | [line] => line
  | first :: rest =>
    let inner := rest.dropLast
    let last := rest.getLastD []
    let lines := first :: alignLines first inner last (commonMargin inner last)
    Text.join "\n" (lines.map trimEnd)

/-- The comment at the top of a file: a line, or a block if the text has more than one line. A text with a glyph that
may not stand in a file is refused, and so is one of several lines with the end of a block in it. -/
def headerComment? (t : Text) : Option Text :=
  if !t.all isSourceGlyph then none
  else if .char '\n' ∉ t then some (lineComment (" " ++ t))
  else if (blockRest? t).isSome then none
  else some (blockComment ("\n" ++ t ++ "\n"))

end Generate
end RegexBuilder
