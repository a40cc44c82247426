/-
# Entries of a generated file

A definition becomes an entry if its pattern has a text, if no definition before it generates one of
its two names, and if the engine takes the text. The first definition that does not is the error of
the whole list.

`entries` is the list; `report` is what the log says about it.
-/

import RegexBuilder.Compile
import RegexBuilder.Description.Library
import RegexBuilder.Generate.Log
import RegexBuilder.Generate.Name

namespace RegexBuilder
namespace Generate

open Description (NamedPattern Position)

/-- A definition as it stands in a generated file. -/
structure Entry where
  /-- The name of the definition. -/
  name : Text
  /-- The variable. -/
  ident : Text
  /-- The constant that holds the text. -/
  constant : Text
  /-- The text of the pattern. -/
  source : Text
deriving DecidableEq, Repr

/-- The entry of a definition with the given text. -/
def Entry.of (name source : Text) : Entry := ⟨name, identifier name, patternConstant name, source⟩

/-- Why definitions have no entries. -/
inductive EntryError where
  /-- The pattern has no text. -/
  | failed (pos : Position) (name : Text) (g : Graph) (f : Failure)
  /-- Two definitions generate the same name. -/
  | clash (first second id : Text)
  | engine (name used : Text) (e : EngineError)

/-- The message for the error; what an engine itself says is left out. -/
def EntryError.message : EntryError → Text
  | failed pos name g f => pos.shown ++ ": pattern " ++ name ++ ": " ++ f.message g
  | clash first second id => "patterns " ++ first ++ " and " ++ second ++ " both generate " ++ id
  | engine name used .refused => "pattern " ++ name ++ " does not compile with " ++ used
  | engine name used e =>
    "pattern " ++ name ++ " does not compile with " ++ used ++ ": " ++ e.message

/-- The names that are generated so far, each with the definition that generates it. -/
abbrev Owners := List (Text × Text)

/-- Gives the name `id` to the definition `name`. -/
def Owners.assign (owners : Owners) (name id : Text) : Except EntryError Owners :=
  match owners.lookup id with
  | some first => .error (.clash first name id)
  | none => .ok ((id, name) :: owners)

/-- The entry of a definition, and the names that are generated with it. -/
def entry (accepts : Acceptance) (engine : Text) (g : Graph) (owners : Owners) (d : NamedPattern) :
    Except EntryError (Entry × Owners) := do
  let x ← (g.render (some d.node)).mapError (.failed d.pos d.name g)
  let e := Entry.of d.name x.text
  let owners ← owners.assign d.name e.ident
  let owners ← owners.assign d.name e.constant
  (accepts.check engine x).mapError (.engine d.name engine)
  return (e, owners)

/-- The entries of the definitions, after those that generate the names of `owners`. -/
def entries (accepts : Acceptance) (engine : Text) (g : Graph) :
    Owners → List NamedPattern → Except EntryError (List Entry)
  | _, [] => .ok []
  | owners, d :: rest => do
    let (e, owners) ← entry accepts engine g owners d
    let es ← entries accepts engine g owners rest
    return e :: es

/-- The block of a definition in the log. -/
def reportOne (accepts : Acceptance) (engine : Text) (g : Graph) (owners : Owners)
    (d : NamedPattern) (l : Log) : Log :=
  let l := l.definition d.name d.pos.shown
  match g.render (some d.node) with
  | .error f => l.detail "render failed: %s" [f.message g]
  | .ok x =>
    let l := l.detail "source: %s" [x.text]
    let l := if x.subtraction then l.detail "uses character class subtraction" [] else l
    match entry accepts engine g owners d with
    | .error (.engine _ _ e) => l.detail "%s: %s" [engine, e.message]
    | .error _ => l
    | .ok (e, _) => (l.detail "%s: ok" [engine]).detail "emits %s and %s" [e.constant, e.ident]

/-- The blocks of the definitions in the log, up to the first one that has no entry. -/
def report (accepts : Acceptance) (engine : Text) (g : Graph) :
    Owners → List NamedPattern → Log → Log
  | _, [], l => l
  | owners, d :: rest, l =>
    let l := reportOne accepts engine g owners d l
    match entry accepts engine g owners d with
    | .error _ => l
    | .ok (_, owners) => report accepts engine g owners rest l

end Generate
end RegexBuilder
