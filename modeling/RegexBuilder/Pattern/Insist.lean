/-
# Insisting on an answer

For constants of a program, where a failure is a mistake of its author, there is a way to ask that
ends the program when there is no answer. What it ends with names what was asked and why there is no
answer.
-/

import RegexBuilder.Pattern.Ask
import RegexBuilder.Pattern.NumericRange

namespace RegexBuilder

/-- What a program ends with when it insists on an answer that does not exist. -/
inductive Abort where
  /-- A fault has no words of its own. -/
  | fault (f : Fault)
  | message (words : Text)
deriving DecidableEq, Repr

/-- The end of a program that fails with `f` while it does what the words `lead` say. -/
def Failure.abort (g : Graph) (lead : Text) : Failure → Abort
  | .broken f => .fault f
  | f => .message (lead ++ f.message g)

/-- The text of a pattern that must have one. -/
def Graph.insistText (g : Graph) (r : Ref) : Except Abort Text :=
  match g.render r with
  | .ok x => .ok x.text
  | .error f => .error (f.abort g ("pattern: String(" ++ g.label r ++ "): "))

/-- The pattern of a numeric range that must have one. -/
def insistNumericRange (min max : Int) (padding : Padding) : Except Abort Tree :=
  (numericRange min max padding).mapError fun e =>
    .message ("pattern: NumericRange(" ++ Text.ofInt min ++ ", " ++ Text.ofInt max ++ "): " ++
      e.message)

/-- The range between two characters that must be in order. -/
def insistRange (first last : Character) : Except Abort (Range Character) :=
  (Range.ofCharacters first last).mapError fun e => .message ("pattern: " ++ e.message)

end RegexBuilder
