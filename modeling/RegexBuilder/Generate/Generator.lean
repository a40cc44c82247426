/-
# Generating files

A generator holds a library of patterns and what it has put together so far. Each call of `generate`
renders all patterns anew, adds a header and the declarations to the main file, and writes it; a
second call therefore writes a file with two headers and each declaration twice. The file of tests
is made anew on each call.

Saving a file takes two writes: the file is written as it is printed, and then read back and written in its layout.
Nothing is written unless every pattern has an entry and the printer takes the main file.
-/

import RegexBuilder.Generate.SourceFile

namespace RegexBuilder
namespace Generate

open Description (Library)

/-- What is to be generated. -/
structure Config where
  library : Library
  /-- The name of the description, for the header. -/
  source : Text
  output : Text
  package : Text
  /-- The name of the engine; no name means `regexp2`. -/
  engine : Text
  withTests : Bool
  verbose : Bool

/-- Why a file was not saved. -/
inductive SaveError where
  /-- The printer refuses the file. -/
  | unprinted
  | unwritten (e : FileError)
  /-- What was written cannot be read back. -/
  | unread (e : FileError)
  /-- What was read back has no layout. -/
  | unformatted
  | unrewritten (e : FileError)

/-- What has failed. -/
def SaveError.step : SaveError → Text
  | unprinted | unwritten _ => "failed to save file"
  | unread _ | unformatted | unrewritten _ => "failed to format file"

/-- What the files say about it; what the printer says is left out. -/
def SaveError.detail : SaveError → Text
  | unprinted | unformatted => []
  | unwritten e | unread e | unrewritten e => ": " ++ e.message

/-- Why nothing, or not everything, was generated. -/
inductive GenerateError where
  | entries (e : EntryError)
  | main (e : SaveError)
  | tests (e : SaveError)

/-- The message for the error. -/
def GenerateError.message : GenerateError → Text
  | entries e => e.message
  | main e => e.step ++ e.detail
  | tests e => "failed to generate test file" ++ e.detail

/-- Writes a file as it is printed, then reads it back and writes it in its layout. -/
def save {m : Type → Type} [Monad m] (printer : Printer) (files : Files m) (path : Text) (printed : Option Text) :
    m (Except SaveError Unit) := do
  match printed with
  | none => return .error .unprinted
  | some t =>
    match ← files.write path t with
    | .error e => return .error (.unwritten e)
    | .ok () =>
      match ← files.read path with
      | .error e => return .error (.unread e)
      | .ok src =>
        match printer.format src with
        | none => return .error .unformatted
        | some u => return (← files.write path u).mapError .unrewritten

/-- The path of the file of tests that goes with a file. -/
def testPath (output : Text) : Text := output.dropEnding ".go" ++ "_test.go"

/-- A generator and what it has put together. -/
structure Generator where
  config : Config
  log : Log
  file : SourceFile

namespace Generator

/-- The name of the engine that is used. -/
def engineName (c : Config) : Text := if c.engine = [] then Engine.regexp2.name else c.engine

/-- A generator that has put nothing together. An engine that does not exist has no entries. -/
def new (c : Config) : Generator where
  config := { c with engine := engineName c }
  log := .start c.verbose
  file := ⟨[], c.package, (Engine.ofName? (engineName c)).getD .regexp2, []⟩

/-- The entries of all patterns. -/
def entries (gen : Generator) (accepts : Acceptance) : Except EntryError (List Entry) :=
  Generate.entries accepts gen.config.engine gen.config.library.graph [] gen.config.library.patterns

/-- The generator after the log has told about all patterns. -/
def reported (gen : Generator) (accepts : Acceptance) : Generator :=
  let lib := gen.config.library
  let l := (gen.log.heading "Rendering").line "Engine: %s" [gen.config.engine]
  let l := l.line "Definitions: %s" [Text.ofNat lib.patterns.length]
  { gen with log := report accepts gen.config.engine lib.graph [] lib.patterns l }

/-- The texts of all patterns. -/
def render (gen : Generator) (accepts : Acceptance) : Except EntryError (List Text) × Generator :=
  ((gen.entries accepts).map (·.map Entry.source), gen.reported accepts)

/-- The generator with the declarations of the entries in its file. -/
def assembled (gen : Generator) (es : List Entry) : Generator :=
  { gen with
    log := gen.log.heading "Code Generation"
    file := gen.file.extend (headerLine gen.config.source) es }

/-- The generator after the log has told that a file is written. -/
def wrote (gen : Generator) (path : Text) : Generator :=
  { gen with log := gen.log.line "Wrote %s" [path] }

/-- Saves the file of tests, if there is to be one. -/
def writeTests {m : Type → Type} [Monad m] (gen : Generator) (files : Files m) (printer : Printer)
    (es : List Entry) : m (Except GenerateError Unit × Generator) := do
  if gen.config.withTests then
    let path := testPath gen.config.output
    match ← save printer files path (printer.tests (headerLine gen.config.source) gen.config.package es) with
    | .error e => return (.error (.tests e), gen)
    | .ok () => return (.ok (), gen.wrote path)
  else return (.ok (), gen)

/-- Renders the patterns and writes the generated files. -/
def generate {m : Type → Type} [Monad m] (gen : Generator) (accepts : Acceptance) (files : Files m)
    (printer : Printer := .standard) : m (Except GenerateError Unit × Generator) := do
  let gen := gen.reported accepts
  match gen.entries accepts with
  | .error e => return (.error (.entries e), gen)
  | .ok es =>
    let gen := gen.assembled es
    match ← save printer files gen.config.output (printer.main gen.file) with
    | .error e => return (.error (.main e), gen)
    | .ok () => (gen.wrote gen.config.output).writeTests files printer es

end Generator
end Generate
end RegexBuilder
