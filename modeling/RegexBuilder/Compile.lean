/-
# Compiling patterns

What the engines make of a pattern. All questions go through the text of the pattern and the
engines' acceptance:

| question | engine | a subtraction of sets |
| --- | --- | --- |
| `compile` | `regexp2` | is read as it is meant |
| `compileLinear` | `coregex` | is refused, since it would be read differently |
| `analyze` | each of them | is refused by all but `regexp2` |
-/

import RegexBuilder.Engine
import RegexBuilder.Pattern.Insist

namespace RegexBuilder

/-- Why a pattern was not compiled. -/
inductive CompileError where
  /-- The pattern has no text. -/
  | pattern (f : Failure)
  | refused (source : Text)
  /-- The engine would take the text for something else. -/
  | misread (source : Text)
deriving DecidableEq, Repr

/-- The message for the error; what the engine itself says is left out. -/
def CompileError.message (g : Graph) : CompileError → Text
  | pattern f => f.message g
  | refused source => "failed to compile " ++ source.quoted
  | misread source =>
    "failed to compile " ++ source.quoted ++ ": pattern uses syntax RE2 reads differently"

/-- A pattern that `regexp2` has compiled. -/
structure Compiled where
  source : Text
  /-- The engine's options, as a sum of powers of two. They do not change what compiles. -/
  options : Int
  /-- The bound on the time of a match, if it is not left to the engine. -/
  timeout : Option Int
deriving DecidableEq, Repr

/-- Which engines take a pattern. -/
structure Analysis where
  source : Text
  engines : List Engine
  /-- Both engines that match in linear time take it. -/
  linear : Bool
deriving DecidableEq, Repr

/-- The analysis once the engine has been asked about the rendering. The engine is listed if it takes it; otherwise, if
it matches in linear time, not both of these do. -/
def Analysis.ask (accepts : Acceptance) (x : Rendering) (a : Analysis) (e : Engine) : Analysis :=
  match accepts.check e.name x with
  | .ok _ => { a with engines := a.engines ++ [e] }
  | .error _ => if e = .regexp2 then a else { a with linear := false }

namespace Graph

/-- The text of the pattern, for an engine. -/
def source (g : Graph) (r : Ref) : Except CompileError Rendering := (g.render r).mapError .pattern

/-- Compiles the pattern with `regexp2`. A bound on the time counts if it is positive. -/
def compile (g : Graph) (accepts : Acceptance) (r : Ref) (options timeout : Int) :
    Except CompileError Compiled := do
  let x ← g.source r
  if accepts .regexp2 x.text then
    return ⟨x.text, options, if 0 < timeout then some timeout else none⟩
  else throw (.refused x.text)

/-- Compiles the pattern with `coregex`, and answers with its text. -/
def compileLinear (g : Graph) (accepts : Acceptance) (r : Ref) : Except CompileError Text := do
  let x ← g.source r
  if x.subtraction then throw (.misread x.text)
  else if accepts .coregex x.text then return x.text
  else throw (.refused x.text)

/-- Compiles a pattern that must compile, without options. -/
def insistCompile (g : Graph) (accepts : Acceptance) (r : Ref) : Except Abort Compiled :=
  (g.compile accepts r 0 0).mapError fun e =>
    match e with
    | .pattern f => f.abort g "regcraft: "
    | e => .message ("regcraft: " ++ e.message g)

/-- Which engines take the pattern. -/
def analyze (g : Graph) (accepts : Acceptance) (r : Ref) : Except Failure Analysis := do
  let x ← g.render r
  return Engine.all.foldl (Analysis.ask accepts x) ⟨x.text, [], true⟩

end Graph
end RegexBuilder
