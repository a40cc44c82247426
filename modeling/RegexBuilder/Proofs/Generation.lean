/-
# What a run of a generator does

A run saves at most two files: the main file, and after it the file of tests. `Generator.Generates` lists the ways
in which it can end, and every run ends in one of them (`generates_of_generate`). A job reads one file and then runs
a generator once (`Job.runs_of_run`).
-/

import RegexBuilder.Generate.Job
import RegexBuilder.Proofs.Outcome

namespace RegexBuilder
namespace Generate
namespace Generator

variable {σ : Type} {gen gen' : Generator} {accepts : Acceptance} {files : Files (StateM σ)} {printer : Printer}
  {s s' : σ} {answer : Except GenerateError Unit}

/-- The main file with the declarations of the entries. -/
def extended (gen : Generator) (es : List Entry) : SourceFile :=
  gen.file.extend (headerLine gen.config.source) es

/-- Saving the main file for the entries. -/
def saveMain (gen : Generator) (files : Files (StateM σ)) (printer : Printer) (es : List Entry) :
    StateM σ (Except SaveError Unit) :=
  save printer files gen.config.output (printer.main (gen.extended es))

/-- Saving the file of tests for the entries. -/
def saveTests (gen : Generator) (files : Files (StateM σ)) (printer : Printer) (es : List Entry) :
    StateM σ (Except SaveError Unit) :=
  save printer files (testPath gen.config.output)
    (printer.tests (headerLine gen.config.source) gen.config.package es)

/-- The ways in which a run can end that begins with the files in the state `s`: its answer, and the
state of the files after it. -/
inductive Generates (gen : Generator) (accepts : Acceptance) (files : Files (StateM σ)) (printer : Printer) (s : σ) :
    Except GenerateError Unit → σ → Prop where
  | withoutEntries {e : EntryError} (hentries : gen.entries accepts = .error e) :
    Generates gen accepts files printer s (.error (.entries e)) s
  | unsaved {es : List Entry} {e : SaveError} {s' : σ} (hentries : gen.entries accepts = .ok es)
    (hmain : (gen.saveMain files printer es).run s = (.error e, s')) :
    Generates gen accepts files printer s (.error (.main e)) s'
  | alone {es : List Entry} {s' : σ} (hentries : gen.entries accepts = .ok es)
    (hmain : (gen.saveMain files printer es).run s = (.ok (), s')) (htests : gen.config.withTests = false) :
    Generates gen accepts files printer s (.ok ()) s'
  | tested {es : List Entry} {r : Except SaveError Unit} {s₁ s' : σ} (hentries : gen.entries accepts = .ok es)
    (hmain : (gen.saveMain files printer es).run s = (.ok (), s₁)) (htests : gen.config.withTests = true)
    (htest : (gen.saveTests files printer es).run s₁ = (r, s')) :
    Generates gen accepts files printer s (r.mapError .tests) s'

/-- What `writeTests` does after the main file is saved. -/
theorem generates_of_writeTests {es : List Entry} {s₁ : σ} (hentries : gen.entries accepts = .ok es)
    (hmain : (gen.saveMain files printer es).run s = (.ok (), s₁)) (gen₁ : Generator)
    (hconfig : gen₁.config = gen.config) (h : (gen₁.writeTests files printer es).run s₁ = ((answer, gen'), s')) :
    gen.Generates accepts files printer s answer s' ∧ gen'.config = gen.config := by
  cases htests : gen.config.withTests with
  | false =>
    simp only [writeTests, hconfig, htests, Bool.false_eq_true, if_false] at h
    cases h
    exact ⟨.alone hentries hmain htests, hconfig⟩
  | true =>
    simp only [writeTests, hconfig, htests, if_true] at h
    cases htest : (gen.saveTests files printer es).run s₁ with
    | mk r s₂ =>
      have hends := Generates.tested hentries hmain htests htest
      rw [saveTests] at htest
      rw [run_bind_of_run htest] at h
      cases r with
      | error | ok =>
        cases h
        exact ⟨hends, hconfig⟩

/-- **Every run ends in one of the listed ways** and keeps what is to be generated. -/
theorem generates_of_generate (h : (gen.generate accepts files printer).run s = ((answer, gen'), s')) :
    gen.Generates accepts files printer s answer s' ∧ gen'.config = gen.config := by
  -- neither the log nor the assembled file plays a part in the entries
  have hreported : (gen.reported accepts).entries accepts = gen.entries accepts := rfl
  cases hentries : gen.entries accepts with
  | error =>
    simp only [generate, hreported, hentries] at h
    cases h
    exact ⟨.withoutEntries hentries, rfl⟩
  | ok es =>
    simp only [generate, hreported, hentries] at h
    cases hmain : (gen.saveMain files printer es).run s with
    | mk r s₁ =>
      have hsave : (save printer files ((gen.reported accepts).assembled es).config.output
        (printer.main ((gen.reported accepts).assembled es).file)).run s = (r, s₁) := hmain
      rw [run_bind_of_run hsave] at h
      cases r with
      | error =>
        cases h
        exact ⟨.unsaved hentries hmain, rfl⟩
      | ok =>
        exact generates_of_writeTests hentries hmain
          (((gen.reported accepts).assembled es).wrote gen.config.output) rfl h

/-! ### Calls -/

/-- What can be asked of a generator. -/
inductive Call where
  | render
  | generate
deriving DecidableEq, Repr

/-- The generator after a call. -/
def call (gen : Generator) (accepts : Acceptance) (files : Files (StateM σ)) : Call → StateM σ Generator
  | .render => return (gen.render accepts).2
  | .generate => do return (← gen.generate accepts files).2

/-- The generator after some calls. -/
def after (gen : Generator) (accepts : Acceptance) (files : Files (StateM σ)) (calls : List Call) :
    StateM σ Generator :=
  calls.foldlM (fun gen k => gen.call accepts files k) gen

/-- A call keeps what is to be generated, whatever happens to the files. -/
theorem config_call (gen : Generator) (k : Call) (s : σ) :
    ((gen.call accepts files k).run s).1.config = gen.config := by
  cases k with
  | render => rfl
  | generate =>
    cases hrun : (gen.generate accepts files).run s with
    | mk p s' =>
      have hcall : ((gen.call accepts files .generate).run s).1 = p.2 := congrArg (·.1.2) hrun
      rw [hcall]
      exact (generates_of_generate hrun).2

/-- **What is to be generated stays the same,** whatever calls there are. -/
theorem config_after (gen : Generator) (calls : List Call) (s : σ) :
    ((gen.after accepts files calls).run s).1.config = gen.config := by
  induction calls generalizing gen s with
  | nil => rfl
  | cons k calls ih =>
    cases hcall : (gen.call accepts files k).run s with
    | mk gen₁ s₁ =>
      have hafter : (gen.after accepts files (k :: calls)).run s = (gen₁.after accepts files calls).run s₁ := by
        rw [after, List.foldlM_cons, StateT.run_bind, hcall]
        rfl
      rw [hafter, ih]
      have hconfig : ((gen.call accepts files k).run s).1.config = gen.config := config_call gen k s
      rwa [hcall] at hconfig

end Generator

/-! ### Jobs -/

namespace Job

open Description (Library LoadError UnknownName load loadFile)

variable {σ : Type} {j : Job} {accepts : Acceptance} {printer : Printer}

/-- The ways in which a run can end that begins with the files in the state `s`: its answer, and the state of
the files after it. -/
inductive Runs (j : Job) (accepts : Acceptance) (files : Files (StateM σ)) (printer : Printer) (s : σ) :
    Except JobError Unit → σ → Prop where
  | invalid {e : OptionsError} (hvalid : j.validate = .error e) : Runs j accepts files printer s (.error (.options e)) s
  | unreadable {engine : Engine} {e : FileError} {s' : σ} (hvalid : j.validate = .ok engine)
    (hread : (files.read j.input).run s = (.error e, s')) :
    Runs j accepts files printer s (.error (.load (.unreadable e))) s'
  | unloaded {engine : Engine} {src : Text} {e : LoadError} {s' : σ} (hvalid : j.validate = .ok engine)
    (hread : (files.read j.input).run s = (.ok src, s')) (hload : load j.input src = .error e) :
    Runs j accepts files printer s (.error (.load (.load e))) s'
  | unknownName {engine : Engine} {src : Text} {lib : Library} {u : UnknownName} {s' : σ}
    (hvalid : j.validate = .ok engine) (hread : (files.read j.input).run s = (.ok src, s'))
    (hload : load j.input src = .ok lib) (hselect : lib.select j.definitions = .error u) :
    Runs j accepts files printer s (.error (.unknownName u)) s'
  | generated {engine : Engine} {src : Text} {lib selected : Library} {answer : Except GenerateError Unit}
    {gen' : Generator} {s₁ s' : σ} (hvalid : j.validate = .ok engine)
    (hread : (files.read j.input).run s = (.ok src, s₁)) (hload : load j.input src = .ok lib)
    (hselect : lib.select j.definitions = .ok selected)
    (hrun : ((Generator.new (j.config engine selected)).generate accepts files printer).run s₁ = ((answer, gen'), s')) :
    Runs j accepts files printer s (answer.mapError .generate) s'

/-- **Every run ends in one of the listed ways.** -/
theorem runs_of_run {files : Files (StateM σ)} {s s' : σ} {answer : Except JobError Unit} {log : Text}
    (h : (j.run accepts files printer).run s = ((answer, log), s')) : j.Runs accepts files printer s answer s' := by
  unfold run at h
  cases hvalid : j.validate with
  | error =>
    rw [hvalid] at h
    cases h
    exact .invalid hvalid
  | ok engine =>
    cases hread : (files.read j.input).run s with
    | mk r s₁ =>
      cases r with
      | error e =>
        have hloaded : (loadFile files j.input).run s = (.error (.unreadable e), s₁) := run_bind_of_run hread
        simp only [hvalid, run_bind_of_run hloaded] at h
        cases h
        exact .unreadable hvalid hread
      | ok src =>
        have hloaded : (loadFile files j.input).run s = ((load j.input src).mapError .load, s₁) := run_bind_of_run hread
        simp only [hvalid, run_bind_of_run hloaded] at h
        cases hload : load j.input src with
        | error =>
          rw [hload] at h
          cases h
          exact .unloaded hvalid hread hload
        | ok lib =>
          simp only [hload, Except.mapError] at h
          cases hselect : lib.select j.definitions with
          | error =>
            rw [hselect] at h
            cases h
            exact .unknownName hvalid hread hload hselect
          | ok selected =>
            cases hrun : ((Generator.new (j.config engine selected)).generate accepts files printer).run s₁ with
            | mk =>
              simp only [hselect, run_bind_of_run hrun] at h
              cases h
              exact .generated hvalid hread hload hselect hrun

end Job
end Generate
end RegexBuilder
