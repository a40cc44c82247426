/-
# Files

What can be done with files, as a record of operations in any monad, and how it fails. A program
that reads and writes through `Files` can run against the files of a machine or against a
`FileTree`, which is a value: the files by their places below the root, and the directory that
relative paths start from. A directory is there if that one or some file is in it.

A path is followed name by name, and the first name that leads nowhere decides what is wrong:

| path | reading | writing |
| --- | --- | --- |
| has a NUL | invalid argument | invalid argument |
| goes through a file | not a directory | not a directory |
| leads to a directory | is a directory, once it is read | is a directory |
| ends in a slash behind another name | not a directory, or missing | is a directory |
| leads nowhere | missing | a new file |
-/

import RegexBuilder.Path

namespace RegexBuilder

open List

/-- Why a file cannot be had. -/
inductive FileProblem where
  | missing | isDirectory | notDirectory
  /-- The path has a NUL. -/
  | badPath
  /-- The path, or a name in it, is too long. -/
  | nameTooLong
  /-- Anything else, in the words of the machine. -/
  | other (words : Text)
deriving DecidableEq, Repr

/-- What was tried with a file. -/
inductive FileAction where
  | opening | reading
deriving DecidableEq, Repr

/-- A failed attempt on a file. -/
structure FileError where
  action : FileAction
  path : Text
  problem : FileProblem
deriving DecidableEq, Repr

/-- The problem as it is shown. -/
def FileProblem.message : FileProblem → Text
  | missing => "no such file or directory"
  | isDirectory => "is a directory"
  | notDirectory => "not a directory"
  | badPath => "invalid argument"
  | nameTooLong => "file name too long"
  | other words => words

/-- The name of what was tried. -/
def FileAction.name : FileAction → Text
  | opening => "open"
  | reading => "read"

/-- The message for the failed attempt. -/
def FileError.message (e : FileError) : Text :=
  e.action.name ++ " " ++ e.path ++ ": " ++ e.problem.message

/-- Reading a whole file and writing one anew. -/
structure Files (m : Type → Type) where
  read : (path : Text) → m (Except FileError Text)
  write : (path content : Text) → m (Except FileError Unit)

/-- Where something is: the names of the directories around it, from the root on, and its own. -/
abbrev Place := List Text

/-- The bytes that a name may have. -/
def maxNameBytes : Nat := 255

/-- The bytes that a path may have. -/
def maxPathBytes : Nat := 4095

/-- The name has more bytes than a name may have. -/
def isTooLong (name : Text) : Bool := maxNameBytes < name.bytes.length

/-- What is wrong with a path whatever the files are. -/
def pathProblem? (path : Text) : Option FileProblem :=
  if .char '\x00' ∈ path then some .badPath
  else if path = [] then some .missing
  else if maxPathBytes < path.bytes.length then some .nameTooLong
  else none

/-- Files and the directory that relative paths start from. -/
structure FileTree where
  here : Place
  files : List (Place × Text)
deriving DecidableEq, Repr

namespace FileTree

/-- The content of the file at the place. -/
def content? (d : FileTree) (p : Place) : Option Text := d.files.lookup p

/-- The place is that of a directory: one on the way to where we are, or one with a file below
it. -/
def isDirectory (d : FileTree) (p : Place) : Bool :=
  p.isPrefixOf d.here || d.files.any fun f => p.length < f.1.length && p.isPrefixOf f.1

/-- The tree with the file at the place `p` set to `content`. -/
def put (d : FileTree) (p : Place) (content : Text) : FileTree :=
  match d.content? p with
  | some _ => { d with files := d.files.map fun f => if f.1 = p then (p, content) else f }
  | none => { d with files := d.files ++ [(p, content)] }

/-- Looking up after the content of one file was replaced. -/
theorem lookup_map_update (files : List (Place × Text)) (p q : Place) (content : Text) :
    (files.map fun f => if f.1 = p then (p, content) else f).lookup q =
      if q = p then (files.lookup p).map fun _ => content else files.lookup q := by
  induction files with
  | nil => simp
  | cons f rest ih =>
    obtain ⟨r, t⟩ := f
    have hb (a b : Place) : (a == b) = decide (a = b) := by
      by_cases h : a = b <;> simp [h]
    by_cases hr : r = p <;> by_cases hq : q = p <;> by_cases hqr : q = r <;>
      simp_all [lookup_cons]

/-- The file that was put has the content that was put, and every other file keeps its own. -/
theorem content?_put (d : FileTree) (p q : Place) (content : Text) :
    (d.put p content).content? q = if q = p then some content else d.content? q := by
  unfold put
  cases h : d.content? p with
  | some =>
    simp only [content?] at h ⊢
    rw [lookup_map_update, h]
    rfl
  | none =>
    simp only [content?] at h ⊢
    by_cases hq : q = p
    · subst hq
      simp [lookup_append, h]
    · have hb : (q == p) = false := by simpa using hq
      simp [lookup_append, lookup_cons, hb, hq]

/-- The name of a directory itself or of the one around it. -/
def isDots (name : Text) : Bool := name = (".": Text) || name = ("..": Text)

/-- The directory that a name leads to from the directory at `p`. Above the root is the root. -/
def enter (d : FileTree) (p : Place) (name : Text) : Except FileProblem Place :=
  if name = (".": Text) then .ok p
  else if name = ("..": Text) then .ok p.dropLast
  else if isTooLong name then .error .nameTooLong
  else if d.isDirectory (p ++ [name]) then .ok (p ++ [name])
  else if (d.content? (p ++ [name])).isSome then .error .notDirectory
  else .error .missing

/-- What a path leads to. -/
inductive Target where
  /-- A directory that the path does not call by its name. -/
  | directory
  /-- What `name` is in the directory at `parent`; it must be a directory if a slash follows. -/
  | named (parent : Place) (name : Text) (slash : Bool)
deriving DecidableEq, Repr

/-- What a path leads to. All but its last name must be directories. -/
def target (d : FileTree) (path : Text) : Except FileProblem Target :=
  match pathProblem? path with
  | some problem => .error problem
  | none => do
    let names := (Path.parts path).filter (· ≠ [])
    let start := if Path.isAbsolute path then [] else d.here
    let parent ← names.dropLast.foldlM d.enter start
    match names.getLast? with
    | none => return .directory
    | some name =>
      if isDots name then return .directory
      else return .named parent name (path.getLast? = some (.char '/'))

/-- The content of the file that a path leads to. -/
def read (d : FileTree) (path : Text) : Except FileError Text := do
  match ← (d.target path).mapError (⟨.opening, path, ·⟩) with
  | .directory => throw ⟨.reading, path, .isDirectory⟩
  | .named parent name slash =>
    if isTooLong name then throw ⟨.opening, path, .nameTooLong⟩
    else if d.isDirectory (parent ++ [name]) then throw ⟨.reading, path, .isDirectory⟩
    else
      match d.content? (parent ++ [name]) with
      | none => throw ⟨.opening, path, .missing⟩
      | some t => if slash then throw ⟨.opening, path, .notDirectory⟩ else return t

/-- The tree after writing to the file that a path leads to. -/
def write (d : FileTree) (path content : Text) : Except FileError FileTree := do
  match ← (d.target path).mapError (⟨.opening, path, ·⟩) with
  | .directory => throw ⟨.opening, path, .isDirectory⟩
  | .named parent name slash =>
    if slash || d.isDirectory (parent ++ [name]) then throw ⟨.opening, path, .isDirectory⟩
    else if isTooLong name then throw ⟨.opening, path, .nameTooLong⟩
    else return d.put (parent ++ [name]) content

/-- Reading and writing the files of a tree. -/
def access : Files (StateM FileTree) where
  read path := do return (← get).read path
  write path content := do
    match (← get).write path content with
    | .ok d =>
      set d
      return .ok ()
    | .error e => return .error e

end FileTree
end RegexBuilder
