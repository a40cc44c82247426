/-
# Jobs

A job generates files from a description file: it checks its options, loads the description, chooses
definitions and runs a generator once.
-/

import RegexBuilder.Generate.Generator

namespace RegexBuilder
namespace Generate

open Description (Library FileLoadError UnknownName loadFile)

/-- The options of a job. -/
structure Job where
  /-- The path of the description. -/
  input : Text
  /-- The path of the generated file. -/
  output : Text
  package : Text
  engine : Text
  /-- The definitions that are wanted; none means all. -/
  definitions : List Text
  withTests : Bool
  verbose : Bool
deriving DecidableEq, Repr

/-- What is wrong with the options of a job. -/
inductive OptionsError where
  | noInput
  | noOutput
  | noPackage
  | engine (e : EngineError)
deriving DecidableEq, Repr

/-- The message for the error. -/
def OptionsError.message : OptionsError → Text
  | noInput => "input file cannot be empty"
  | noOutput => "output file cannot be empty"
  | noPackage => "package cannot be empty"
  | engine e => e.message

/-- Why a job failed. -/
inductive JobError where
  | options (e : OptionsError)
  | load (e : FileLoadError)
  | unknownName (e : UnknownName)
  | generate (e : GenerateError)

/-- The message for the error. -/
def JobError.message : JobError → Text
  | options e => "invalid options: " ++ e.message
  | load e => "failed to load definitions: " ++ e.message
  | unknownName e => e.message
  | generate e => "failed to generate code: " ++ e.message

namespace Job

/-- The engine of the job, if its options are in order. -/
def validate (j : Job) : Except OptionsError Engine :=
  if j.input = [] then .error .noInput
  else if j.output = [] then .error .noOutput
  else if j.package = [] then .error .noPackage
  else (Engine.choose j.engine).mapError .engine

/-- What the generator of the job is to generate. -/
def config (j : Job) (engine : Engine) (lib : Library) : Config :=
  ⟨lib, j.input, j.output, j.package, engine.name, j.withTests, j.verbose⟩

/-- Runs the job; the answer comes with what was logged. -/
def run {m : Type → Type} [Monad m] (j : Job) (accepts : Acceptance) (files : Files m)
    (printer : Printer := .standard) : m (Except JobError Unit × Text) := do
  match j.validate with
  | .error e => return (.error (.options e), [])
  | .ok engine =>
    match ← loadFile files j.input with
    | .error e => return (.error (.load e), [])
    | .ok lib =>
      match lib.select j.definitions with
      | .error e => return (.error (.unknownName e), [])
      | .ok lib =>
        let (r, gen) ← (Generator.new (j.config engine lib)).generate accepts files printer
        return (r.mapError .generate, gen.log.written)

end Job
end Generate
end RegexBuilder
