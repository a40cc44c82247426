/-
# Paths

A path is a text of parts with slashes between them. The operations look at the text alone: no file
is asked for. A part `.` stands for nothing and a part `..` takes the part before it away.
-/

import RegexBuilder.Text

namespace RegexBuilder
namespace Path

/-- The parts between the slashes; there is one more of them than slashes. -/
def parts (path : Text) : List Text := path.split '/'

/-- The last part. -/
def lastPart (path : Text) : Text := (parts path).getLastD []

/-- The path begins at the root. -/
def isAbsolute (path : Text) : Bool := path.head? = some '/'

/-- One more part at the end of `done`. At the root, `..` goes nowhere; before a relative path it
stays. -/
def addPart (absolute : Bool) (done : List Text) (part : Text) : List Text :=
  if part = [] ∨ part = (".": Text) then done
  else if part = ("..": Text) then
    match done.getLast? with
    | none => if absolute then [] else [part]
    | some last => if last = ("..": Text) then done ++ [part] else done.dropLast
  else done ++ [part]

/-- The shortest path to the same place. -/
def clean (path : Text) : Text :=
  let done := (parts path).foldl (addPart (isAbsolute path)) []
  if isAbsolute path then '/' :: Text.join "/" done
  else if done.isEmpty then "."
  else Text.join "/" done

/-- The path of the directory that the last part is in. -/
def directory (path : Text) : Text := clean (path.take (path.length - (lastPart path).length))

/-- The name of what the path leads to, whatever slashes stand at its end. -/
def base (path : Text) : Text :=
  if path = [] then "."
  else
    let trimmed := (path.reverse.dropWhile (· = .char '/')).reverse
    if trimmed = [] then "/" else lastPart trimmed

/-- The last part from its last dot on; nothing if it has no dot. -/
def extension (path : Text) : Text :=
  let last := lastPart path
  if .char '.' ∈ last then '.' :: (last.reverse.takeWhile (· ≠ .char '.')).reverse else []

/-- The path from the root on, if it is taken from the directory `cwd`. -/
def absolute (cwd path : Text) : Text :=
  if isAbsolute path then clean path else clean (cwd ++ "/" ++ path)

end Path
end RegexBuilder
