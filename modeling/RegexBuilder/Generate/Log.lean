/-
# The log of a run

Lines with a label in front. A definition opens a block of its own, and details are indented while a
block is open; a heading closes it. A log that is not enabled follows the blocks and writes nothing.
-/

import RegexBuilder.Text

namespace RegexBuilder
namespace Generate

/-- The template with the arguments in the places of `%s`, and `%` for `%%`. Places without an
argument and arguments without a place are marked. -/
def fill : (template : Text) → (args : List Text) → Text
  | [], [] => []
  | [], args => "%!(EXTRA " ++ Text.join ", " (args.map (Text.ofString "string=" ++ ·)) ++ ")"
  | .char '%' :: .char 's' :: rest, arg :: args => arg ++ fill rest args
  | .char '%' :: .char 's' :: rest, [] => "%!s(MISSING)" ++ fill rest []
  | .char '%' :: .char '%' :: rest, args => '%' :: fill rest args
  | g :: rest, args => g :: fill rest args

/-- What was logged so far. -/
structure Log where
  enabled : Bool
  /-- The definition whose block is open. -/
  current : Text
  written : Text
deriving DecidableEq, Repr

namespace Log

/-- An empty log. -/
def start (enabled : Bool) : Log := ⟨enabled, [], []⟩

/-- What stands in front of each line. -/
def label : Text := "[regcraft] "

/-- The log with the text behind it, if it is enabled. -/
def add (l : Log) (t : Text) : Log := if l.enabled then { l with written := l.written ++ t } else l

/-- One more line. -/
def line (l : Log) (template : Text) (args : List Text) : Log :=
  l.add (fill (label ++ template ++ "\n") args)

/-- A heading, which closes the open block. -/
def heading (l : Log) (name : Text) : Log :=
  { l with current := [] }.add ("\n" ++ label ++ "=== " ++ name ++ " ===\n")

/-- Opens the block of the definition `name` at the place `pos`. -/
def definition (l : Log) (name pos : Text) : Log :=
  { l with current := name }.add (label ++ "--- " ++ name ++ " (" ++ pos ++ ")\n")

/-- One more line of the open block. -/
def detail (l : Log) (template : Text) (args : List Text) : Log :=
  if l.current = [] then l.line template args else l.line ("    " ++ template) args

end Log
end Generate
end RegexBuilder
