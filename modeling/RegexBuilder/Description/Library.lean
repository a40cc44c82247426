/-
# Libraries of patterns

Reading a library of patterns from a file, and choosing patterns of it by name.
-/

import RegexBuilder.Description.Resolve
import RegexBuilder.Files

namespace RegexBuilder
namespace Description

/-- Why there is no library in a file. -/
inductive FileLoadError where
  | unreadable (e : FileError)
  | load (e : LoadError)
deriving DecidableEq, Repr

/-- The message for the error. -/
def FileLoadError.message : FileLoadError → Text
  | unreadable e => "failed to read " ++ e.path ++ ": " ++ e.message
  | load e => e.message

/-- The patterns that the file at `path` describes. -/
def loadFile {m : Type → Type} [Monad m] (files : Files m) (path : Text) :
    m (Except FileLoadError Library) := do
  match ← files.read path with
  | .error e => return .error (.unreadable e)
  | .ok src => return (load path src).mapError .load

/-- A name that no pattern of a library has. -/
structure UnknownName where
  name : Text
deriving DecidableEq, Repr

/-- The message for the name. -/
def UnknownName.message (u : UnknownName) : Text := "no definition named " ++ u.name.quoted

namespace Library

/-- Takes the patterns whose names are still wanted, each name once. The names that stay wanted come with the patterns.
-/
def pick : (wanted : List Text) → List NamedPattern → List NamedPattern × List Text
  | wanted, [] => ([], wanted)
  | wanted, p :: rest =>
    if p.name ∈ wanted then
      let (picked, left) := pick (wanted.filter (· ≠ p.name)) rest
      (p :: picked, left)
    else pick wanted rest

/-- The library with the named patterns only, in its own order; without names, all of it. The first
name that is still wanted after all patterns is an error. -/
def select (lib : Library) (names : List Text) : Except UnknownName Library :=
  if names.isEmpty then .ok lib
  else
    let (picked, left) := pick names lib.patterns
    match names.find? (· ∈ left) with
    | some n => .error ⟨n⟩
    | none => .ok { lib with patterns := picked }

end Library
end Description
end RegexBuilder
