/-
# The command

What the command does with its arguments: it shows help or its version, prints the texts of the
patterns of a description, or runs a job. The answer is the exit code and what is written to the two
outputs; files are read and written through `Files`.
-/

import RegexBuilder.Command.Flags
import RegexBuilder.Generate.Job

namespace RegexBuilder
namespace Command

open Description (FileLoadError UnknownName loadFile)
open Generate (Config EntryError Generator Job Printer)

/-- How the command ends. -/
structure Outcome where
  exit : Nat
  output : Text
  errors : Text
deriving DecidableEq, Repr

/-- The list of flags. -/
def flagList : Text :=
  "  -def value\n" ++
  "    \tOnly generate this definition (repeatable)\n" ++
  "  -engine string\n" ++
  "    \tRegex package used by the generated code: regexp2, regexp, coregex (default \"regexp2\")\n" ++
  "  -help\n" ++
  "    \tShow help message\n" ++
  "  -in string\n" ++
  "    \tPattern description file (required)\n" ++
  "  -out string\n" ++
  "    \tOutput Go file (default: input file with a .go extension)\n" ++
  "  -pkg string\n" ++
  "    \tPackage name for the generated code (default: name of the output directory)\n" ++
  "  -print\n" ++
  "    \tPrint the rendered patterns instead of generating code\n" ++
  "  -test\n" ++
  "    \tAlso generate a test file checking every pattern\n" ++
  "  -v\tLog rendering decisions to stderr\n" ++
  "  -version\n" ++
  "    \tPrint version information\n"

/-- The help text without the list of flags, which goes to the other output. -/
def helpText : Text :=
  "Usage: regcraft -in FILE [OPTIONS]\n\n" ++
  "Generates Go code for the regular expressions described in FILE\n\n" ++
  "Options:\n\n" ++
  "Examples:\n" ++
  "  regcraft -in ids.rx                          # Write ids.go next to ids.rx\n" ++
  "  regcraft -in ids.rx -engine=coregex -test    # Use coregex and write ids_test.go\n" ++
  "  regcraft -in ids.rx -def IPv4 -print         # Print the rendered IPv4 pattern\n"

/-- The version of the command. -/
def versionText : Text := "regcraft version 1.0.0\n"

/-- The end after arguments that have no flags. -/
def FlagError.outcome (e : FlagError) : Outcome where
  exit := if e = .usage then 0 else 2
  output := []
  errors := e.message ++ "Usage of regcraft:\n" ++ flagList

/-- The end with an error, after what was logged. -/
def Outcome.failed (log message : Text) : Outcome := ⟨1, [], log ++ "Error: " ++ message ++ "\n"⟩

/-- The generated file, if no path is given: the description with another extension. -/
def defaultOutput (input : Text) : Text := input.dropEnding (Path.extension input) ++ ".go"

/-- The package, if none is given: the name of the directory of the generated file, with `_` for `-`
and `.`; the root has no name and gives `main`. -/
def defaultPackage (cwd output : Text) : Text :=
  let name := Path.base (Path.absolute cwd (Path.directory output))
  if name = [] ∨ name = ("/" : Text) then "main"
  else name.chars.map fun c => .char (if c = '-' ∨ c = '.' then '_' else c)

/-- Why no patterns were printed. -/
inductive PrintError where
  | load (e : FileLoadError)
  | unknownName (e : UnknownName)
  | entries (e : EntryError)

/-- The message for the error. -/
def PrintError.message : PrintError → Text
  | load e => e.message
  | unknownName e => e.message
  | entries e => e.message

/-- A printed pattern. -/
def printedLine (name source : Text) : Text := name ++ "\t" ++ source ++ "\n"

/-- Prints the patterns of a description, each with its name; the answer comes with what was
logged. -/
def print {m : Type → Type} [Monad m] (accepts : Acceptance) (files : Files m) (input : Text)
    (names : List Text) (verbose : Bool) : m (Except PrintError Text × Text) := do
  match ← loadFile files input with
  | .error e => return (.error (.load e), [])
  | .ok lib =>
    match lib.select names with
    | .error e => return (.error (.unknownName e), [])
    | .ok lib =>
      let gen := Generator.new ⟨lib, [], [], [], Engine.regexp2.name, false, verbose⟩
      let (r, gen) := gen.render accepts
      match r with
      | .error e => return (.error (.entries e), gen.log.written)
      | .ok sources =>
        let names := lib.patterns.map (·.name)
        return (.ok (List.zipWith printedLine names sources).flatten, gen.log.written)

/-- The job that the flags describe, in the directory `cwd`. -/
def job (cwd : Text) (fs : Flags) : Job :=
  let output := if fs.output = [] then defaultOutput fs.input else fs.output
  let package := if fs.package = [] then defaultPackage cwd output else fs.package
  ⟨fs.input, output, package, fs.engine, fs.definitions, fs.isOn .test, fs.isOn .verbose⟩

/-- Does what the flags say, in the directory `cwd`. -/
def execute {m : Type → Type} [Monad m] (accepts : Acceptance) (files : Files m) (cwd : Text)
    (fs : Flags) (printer : Printer := .standard) : m Outcome := do
  if fs.isOn .help then return ⟨0, helpText, flagList⟩
  else if fs.isOn .version then return ⟨0, versionText, []⟩
  else if fs.input = [] then
    return ⟨1, helpText, "Error: -in flag is required\n\n" ++ flagList⟩
  else if fs.isOn .print then
    match ← print accepts files fs.input fs.definitions (fs.isOn .verbose) with
    | (.ok printed, log) => return ⟨0, printed, log⟩
    | (.error e, log) => return .failed log e.message
  else
    match ← (job cwd fs).run accepts files printer with
    | (.ok (), log) => return ⟨0, [], log⟩
    | (.error e, log) => return .failed log e.message

/-- Runs the command with its arguments, in the directory `cwd`. -/
def run {m : Type → Type} [Monad m] (accepts : Acceptance) (files : Files m) (cwd : Text)
    (args : List Text) (printer : Printer := .standard) : m Outcome := do
  match Flags.start.parse args with
  | .error e => return e.outcome
  | .ok fs => execute accepts files cwd fs printer

end Command
end RegexBuilder
