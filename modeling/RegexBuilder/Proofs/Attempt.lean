/-
# What is tried with files

`Files.observed` does with files what `Files` do and writes down each attempt with its answer. A program that is
watched does the same as one that is not (`Observes`), which is kept by the ways in which programs are put together.
On a tree of files the attempts of a run say all that happens to it.
-/

import RegexBuilder.Command.Run
import RegexBuilder.Proofs.Place

namespace RegexBuilder

/-- Something that is tried with a file, and the answer. -/
inductive Attempt where
  | read (path : Text) (answer : Except FileError Text)
  | write (path content : Text) (answer : Except FileError Unit)

/-- The attempt succeeds. -/
def Attempt.succeeds : Attempt → Bool
  | read _ answer => answer.isOk
  | write _ _ answer => answer.isOk

/-- The path and the content that are written. -/
def Attempt.written? : Attempt → Option (Text × Text)
  | write path content (.ok ()) => some (path, content)
  | _ => none

variable {σ α β : Type}

/-- The files, with each attempt written down. -/
def Files.observed (files : Files (StateM σ)) : Files (StateM (σ × List Attempt)) where
  read path := modifyGet fun (s, attempts) =>
    let (r, s) := (files.read path).run s
    (r, (s, attempts ++ [.read path r]))
  write path content := modifyGet fun (s, attempts) =>
    let (r, s) := (files.write path content).run s
    (r, (s, attempts ++ [.write path content r]))

/-- `x` does what `y` does, and besides writes attempts down. -/
def Observes (x : StateM (σ × List Attempt) α) (y : StateM σ α) : Prop :=
  ∀ s attempts, ∃ more, x.run (s, attempts) = ((y.run s).1, ((y.run s).2, attempts ++ more))

namespace Observes

theorem pure (a : α) : Observes (pure a : StateM (σ × List Attempt) α) (pure a) :=
  fun _ _ => ⟨[], by rw [List.append_nil]; rfl⟩

/-- Computations that are observed may follow each other. -/
theorem bind {x : StateM (σ × List Attempt) α} {y : StateM σ α} {f : α → StateM (σ × List Attempt) β}
    {g : α → StateM σ β} (h : Observes x y) (hf : ∀ a, Observes (f a) (g a)) : Observes (x >>= f) (y >>= g) := by
  intro s attempts
  obtain ⟨more, hx⟩ := h s attempts
  obtain ⟨more', hy⟩ := hf (y.run s).1 (y.run s).2 (attempts ++ more)
  refine ⟨more ++ more', ?_⟩
  rw [run_bind_of_run hx, hy, ← List.append_assoc]
  rfl

variable (files : Files (StateM σ))

/-- A file that is read is noted. -/
theorem read (path : Text) : Observes (files.observed.read path) (files.read path) :=
  fun _ _ => ⟨_, rfl⟩

/-- A file that is written is noted. -/
theorem write (path content : Text) : Observes (files.observed.write path content) (files.write path content) :=
  fun _ _ => ⟨_, rfl⟩

theorem loadFile (path : Text) :
    Observes (Description.loadFile files.observed path) (Description.loadFile files path) := by
  refine (read files path).bind fun r => ?_
  cases r with
  | error | ok => exact .pure _

/-- Saving does the same where the file is observed. -/
theorem save (printer : Generate.Printer) (path : Text) (printed : Option Text) :
    Observes (Generate.save printer files.observed path printed) (Generate.save printer files path printed) := by
  unfold Generate.save
  split
  · exact .pure _
  refine (write files _ _).bind fun r => ?_
  cases r with
  | error => exact .pure _
  | ok =>
    refine (read files _).bind fun r => ?_
    cases r with
    | error => exact .pure _
    | ok =>
      dsimp only
      split
      · exact .pure _
      · exact (write files _ _).bind fun _ => .pure _

variable (printer : Generate.Printer)

theorem writeTests (gen : Generate.Generator) (es : List Generate.Entry) :
    Observes (gen.writeTests files.observed printer es) (gen.writeTests files printer es) := by
  unfold Generate.Generator.writeTests
  split
  · refine (save files printer _ _).bind fun r => ?_
    cases r with
    | error | ok => exact .pure _
  · exact .pure _

/-- A generator does the same where its files are observed. -/
theorem generate (gen : Generate.Generator) (accepts : Acceptance) :
    Observes (gen.generate accepts files.observed printer) (gen.generate accepts files printer) := by
  unfold Generate.Generator.generate
  dsimp only
  split
  · exact .pure _
  · refine (save files printer _ _).bind fun r => ?_
    cases r with
    | error => exact .pure _
    | ok => exact writeTests files printer _ _

/-- A job does the same. -/
theorem job (j : Generate.Job) (accepts : Acceptance) :
    Observes (j.run accepts files.observed printer) (j.run accepts files printer) := by
  unfold Generate.Job.run
  split
  · exact .pure _
  refine (loadFile files _).bind fun r => ?_
  cases r with
  | error => exact .pure _
  | ok =>
    dsimp only
    split
    · exact .pure _
    · exact (generate files printer _ accepts).bind fun _ => .pure _

theorem print (accepts : Acceptance) (input : Text) (names : List Text) (verbose : Bool) :
    Observes (Command.print accepts files.observed input names verbose)
      (Command.print accepts files input names verbose) := by
  unfold Command.print
  refine (loadFile files _).bind fun r => ?_
  cases r with
  | error => exact .pure _
  | ok =>
    dsimp only
    split
    · exact .pure _
    · split <;> exact .pure _

/-- **The whole command does the same.** -/
theorem command (accepts : Acceptance) (cwd : Text) (args : List Text) :
    Observes (Command.run accepts files.observed cwd args printer) (Command.run accepts files cwd args printer) := by
  unfold Command.run
  split
  · exact .pure _
  unfold Command.execute
  split
  · exact .pure _
  split
  · exact .pure _
  split
  · exact .pure _
  split
  · refine (print files accepts _ _ _).bind fun r => ?_
    obtain ⟨r | r, log⟩ := r <;> exact .pure _
  · refine (job files printer _ accepts).bind fun r => ?_
    obtain ⟨r | r, log⟩ := r <;> exact .pure _

end Observes

/-! ### Attempts on a tree of files -/

namespace FileTree

variable {d : FileTree} {attempts : List Attempt} {path t : Text} {s : FileTree × List Attempt}

/-- Reading leaves the files as they are. -/
theorem run_observed_read (d : FileTree) (attempts : List Attempt) (path : Text) :
    (access.observed.read path).run (d, attempts) = (d.read path, (d, attempts ++ [.read path (d.read path)])) :=
  rfl

theorem of_observed_read {r : Except FileError Text} (h : (access.observed.read path).run (d, attempts) = (r, s)) :
    d.read path = r ∧ s = (d, attempts ++ [.read path r]) := by
  rw [run_observed_read] at h
  obtain ⟨rfl, rfl⟩ := Prod.mk.inj h
  exact ⟨rfl, rfl⟩

theorem run_write (d : FileTree) (path content : Text) :
    (access.write path content).run d =
      match d.write path content with
      | .ok d' => (.ok (), d')
      | .error e => (.error e, d) := by
  simp only [access, StateT.run_bind, StateT.run_get, pure_bind]
  cases d.write path content <;> rfl

/-- Writing a file changes the files if it succeeds. -/
theorem run_observed_write (d : FileTree) (attempts : List Attempt) (path t : Text) :
    (access.observed.write path t).run (d, attempts) =
      match d.write path t with
      | .ok d' => (.ok (), (d', attempts ++ [.write path t (.ok ())]))
      | .error e => (.error e, (d, attempts ++ [.write path t (.error e)])) := by
  have hwrite : (access.observed.write path t).run (d, attempts) =
      (((access.write path t).run d).1, (((access.write path t).run d).2,
        attempts ++ [.write path t ((access.write path t).run d).1])) := rfl
  rw [hwrite, run_write]
  cases d.write path t <;> rfl

end FileTree

end RegexBuilder
