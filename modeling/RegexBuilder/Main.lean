/-
# The program

Runs the command with the arguments and the files of the machine.
-/

import RegexBuilder.Command.Run

namespace RegexBuilder
namespace Command

/-- The string of a text; a stray byte becomes `U+FFFD`. -/
def stringOf (t : Text) : String := String.ofList t.chars

/-- The path leads to a directory of the machine. -/
def leadsToDirectory (path : Text) : IO Bool := do
  try
    return (← (← IO.FS.realPath (stringOf path)).isDir)
  catch _ => return false

/-- The number by which the machine says that a name is too long. -/
def tooLongCode : UInt32 := 36

/-- Why the machine did not do `action` with the file at `path`. -/
def machineError (action : FileAction) (path : Text) (e : IO.Error) : IO FileError := do
  if ← leadsToDirectory path then return ⟨action, path, .isDirectory⟩
  else
    match e with
    | .noFileOrDirectory .. => return ⟨.opening, path, .missing⟩
    | .inappropriateType .. => return ⟨.opening, path, .notDirectory⟩
    | .invalidArgument _ code _ =>
      return ⟨.opening, path, if code = tooLongCode then .nameTooLong else .badPath⟩
    | e => return ⟨.opening, path, .other (toString e)⟩

/-- Does something with the file at `path`, unless something is wrong with the path itself. -/
def attempt {α : Type} (action : FileAction) (path : Text) (act : String → IO α) :
    IO (Except FileError α) := do
  match pathProblem? path with
  | some problem => return .error ⟨.opening, path, problem⟩
  | none =>
    try
      return .ok (← act (stringOf path))
    catch e => return .error (← machineError action path e)

/-- Reading and writing the files of the machine. -/
def machineFiles : Files IO where
  read path := attempt .reading path fun p => do
    return Text.ofBytes (← IO.FS.readBinFile p).toList
  write path content := attempt .opening path fun p =>
    IO.FS.writeBinFile p ⟨content.bytes.toArray⟩

end Command
end RegexBuilder

open RegexBuilder in
/-- Runs the command, writes what it has to say, and ends with its exit code. -/
def main (args : List String) : IO UInt32 := do
  let cwd := Text.ofString (← IO.currentDir).toString
  let o ← Command.run Engine.accepts Command.machineFiles cwd (args.map Text.ofString)
  (← IO.getStdout).write ⟨o.output.bytes.toArray⟩
  (← IO.getStderr).write ⟨o.errors.bytes.toArray⟩
  return UInt32.ofNat o.exit
