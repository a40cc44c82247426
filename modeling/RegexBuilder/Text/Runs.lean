/-
# Character classes given by runs

A character class is a list of lengths: so many character numbers are not in the class, so many are, so
many are not, and so on. The tables of the standard classes are modules of their own; the short class
of blanks stands here.
-/

import RegexBuilder.Text

namespace RegexBuilder

/-- The number lies in a run that is in the class: every second one, from the second on. -/
def inRuns : List Nat → Nat → Bool
  | gap :: run :: rest, n => gap ≤ n && (n < gap + run || inRuns rest (n - gap - run))
  | _, _ => false

/-- The numbers of the blanks (Unicode property `White_Space`). -/
def blankRuns : List Nat := [
  9, 5, 18, 1, 100, 1, 26, 1, 5599, 1, 2431, 11, 29, 2, 5, 1, 47, 1, 4000, 1]

/-- A blank of any script. -/
def isBlank (c : Char) : Bool := inRuns blankRuns c.toNat

end RegexBuilder
