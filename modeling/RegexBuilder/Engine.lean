/-
# Regular expression engines

The engines that a pattern can be compiled with, and whether one of them takes a pattern as it is meant. An engine is
named by a text, which need not be the name of one.

Which texts an engine accepts is a parameter of everything that asks it (`Acceptance`). The two engines that match in
linear time accept the same texts; `Engine.accepts` is what the three of them accept.

A subtraction of sets is read as a different set by every engine but `regexp2`, so `check` looks for one before it
asks the engine.
-/

import RegexBuilder.Engine.Backtracking
import RegexBuilder.Pattern.Ask

namespace RegexBuilder

/-- The engines. -/
inductive Engine where
  | regexp2 | regexp | coregex
deriving DecidableEq, Repr

/-- Which texts each engine accepts. -/
abbrev Acceptance := Engine → Text → Bool

/-- Why a pattern and an engine do not go together. -/
inductive EngineError where
  /-- A choice of an engine that there is not. -/
  | choice (name : Text)
  | unknown (name : Text)
  /-- The engine takes a subtraction of sets for something else. -/
  | misreads (name : Text)
  /-- The engine does not accept the text; why it does not is its own affair. -/
  | refused
deriving DecidableEq, Repr

/-- The error as it is shown; what the engine itself says is left out. -/
def EngineError.message : EngineError → Text
  | choice name => "unknown engine " ++ name.quoted ++ " (want regexp2, regexp or coregex)"
  | unknown name => "unknown engine " ++ name.quoted
  | misreads name => name ++ " reads character class subtraction as a different class"
  | refused => []

namespace Engine

/-- The engines in the order in which they are shown. -/
def all : List Engine := [regexp2, regexp, coregex]

/-- The name of an engine. -/
def name : Engine → Text
  | regexp2 => "regexp2"
  | regexp => "regexp"
  | coregex => "coregex"

/-- The engine of the name. -/
def ofName? (name : Text) : Option Engine := all.find? fun e => e.name = name

/-- An engine is found by its name. -/
@[simp] theorem ofName?_name (e : Engine) : ofName? e.name = some e := by
  cases e <;> decide

/-- The engine that is chosen by a name; no name chooses `regexp2`. -/
def choose (name : Text) : Except EngineError Engine :=
  if name.isEmpty then .ok regexp2
  else
    match ofName? name with
    | some e => .ok e
    | none => .error (.choice name)

/-- What the engines accept. One that matches in linear time refuses texts with stray bytes, and the
other one reads them as `U+FFFD`. -/
def accepts : Acceptance
  | regexp2, t => Backtracking.accepts t.canonical.chars
  | _, t => t.canonical.all (Glyph.isChar fun _ => true) && Linear.accepts t.canonical.chars

end Engine

namespace Acceptance

/-- Whether the engine of the name accepts the text. -/
def verify (accepts : Acceptance) (name source : Text) : Except EngineError Unit :=
  match Engine.ofName? name with
  | none => .error (.unknown name)
  | some e => if accepts e source then .ok () else .error .refused

/-- Whether the engine of the name accepts the pattern and reads it as it is meant. -/
def check (accepts : Acceptance) (name : Text) (r : Rendering) : Except EngineError Unit :=
  if name ≠ Engine.regexp2.name ∧ r.subtraction then .error (.misreads name)
  else accepts.verify name r.text

end Acceptance
end RegexBuilder
