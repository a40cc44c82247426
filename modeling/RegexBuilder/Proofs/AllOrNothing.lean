/-
# All files or none

The main file is saved before the file of tests is printed, and a printer may take the one and refuse the other
(`Job.fails_halfway`); else a job whose attempts on files succeed writes everything or nothing
(`Job.all_or_nothing`). Of the printer it is assumed that what it prints has a layout (`Printer.IsSettled`).
-/

import RegexBuilder.Proofs.JobRun
import RegexBuilder.Proofs.TestFile

namespace RegexBuilder.Generate

open List

/-- The formatter takes whatever the printer prints. -/
structure Printer.IsSettled (printer : Printer) : Prop where
  main : ∀ f t, printer.main f = some t → printer.format t ≠ none
  tests : ∀ header package es t, printer.tests header package es = some t → printer.format t ≠ none

/-- The texts of the standard printer are laid out already. -/
theorem Printer.isSettled_standard : standard.IsSettled := ⟨fun _ _ _ => nofun, fun _ _ _ _ _ => nofun⟩

namespace Job

variable {j : Job} {accepts : Acceptance} {printer : Printer} {d d' : FileTree} {answer : Except JobError Unit}

/-- The paths that the job writes to, in this order, each with its content. -/
def written (j : Job) (accepts : Acceptance) (printer : Printer) (d : FileTree) : List (Text × Text) :=
  (j.attempts accepts printer d).filterMap Attempt.written?

/-- The job gets as far as saving and wants tests, and the printer takes the main file and refuses the tests. -/
def FitsMainOnly (j : Job) (accepts : Acceptance) (printer : Printer) (d : FileTree) : Prop :=
  j.withTests = true ∧ ∃ src gen es, j.Prepares accepts d src gen es ∧ printer.main (gen.extended es) ≠ none ∧
    printer.tests (headerLine j.input) j.package es = none

/-- A file whose saving fails although every attempt succeeds is refused, and nothing is written; one that is saved is
written to its path. -/
theorem cases_of_saves {path : Text} {printed : Option Text} {attempts : List Attempt}
    {r : Except SaveError Unit} (h : d.Saves printer path printed attempts r d')
    (hsettled : ∀ t, printed = some t → printer.format t ≠ none) (hsucceed : ∀ a ∈ attempts, a.succeeds = true) :
    printed = none ∧ r = .error .unprinted ∧ attempts = [] ∧ d' = d ∨
      printed ≠ none ∧ r = .ok () ∧
        ∀ p, p ∈ (attempts.filterMap Attempt.written?).map Prod.fst ↔ p = path := by
  cases h with
  | unprinted hprinted => exact .inl ⟨hprinted, rfl, rfl, rfl⟩
  | unwritten => cases hsucceed _ mem_cons_self
  | unformatted hprinted hwrite hformat => exact absurd hformat (hsettled _ hprinted)
  | saved hprinted => exact .inr ⟨hprinted ▸ nofun, rfl, by simp [Attempt.written?]⟩

/-- **If every attempt succeeds,** then all is written or nothing, unless the printer takes the main file only. -/
theorem Ends.all_or_none {attempts : List Attempt} (h : j.Ends accepts printer d attempts answer d')
    (hprinter : printer.IsSettled) (hsucceed : ∀ a ∈ attempts, a.succeeds = true) :
    (¬ j.FitsMainOnly accepts printer d → (∃ e, answer = .error e) ∧ attempts.filterMap Attempt.written? = [] ∧ d' = d ∨
      answer = .ok () ∧ ∀ p, p ∈ (attempts.filterMap Attempt.written?).map Prod.fst ↔ p ∈ j.outputs) ∧
    (j.FitsMainOnly accepts printer d → answer = .error (.generate (.tests .unprinted)) ∧
      ∀ p, p ∈ (attempts.filterMap Attempt.written?).map Prod.fst ↔ p = j.output) := by
  cases h with
  | unprepared hwritten hnone =>
    refine ⟨fun _ => .inl ⟨⟨_, rfl⟩, hwritten, rfl⟩, ?_⟩
    rintro ⟨-, src, gen, es, hprepares, -⟩
    exact absurd hprepares (hnone src gen es)
  | @main src gen es saves r _ hprepares hmain hlast =>
    obtain ⟨-, hsucceed⟩ := forall_mem_cons.1 hsucceed
    -- the file of tests is not reached
    have hfits : printer.main (gen.extended es) = none ∨ j.withTests = false → ¬ j.FitsMainOnly accepts printer d := by
      rintro hcase ⟨hon, src', gen', es', hprepares', hmain', -⟩
      obtain ⟨rfl, rfl⟩ := hprepares.unique hprepares'
      rcases hcase with hnone | hoff
      · exact hmain' hnone
      · cases hon.symm.trans hoff
    rcases cases_of_saves hmain (hprinter.main _) hsucceed with ⟨hnone, rfl, rfl, rfl⟩ | ⟨-, rfl, hpaths⟩
    · exact ⟨fun _ => .inl ⟨⟨_, rfl⟩, rfl, rfl⟩, fun h => absurd h (hfits (.inl hnone))⟩
    · refine ⟨fun _ => .inr ⟨rfl, fun p => ?_⟩, fun h => absurd h (hfits (.inr (hlast rfl)))⟩
      rw [filterMap_cons_none rfl, hpaths, outputs, hlast rfl]
      simp
  | @tests src gen es saves saves' r d₁ _ hprepares hmain htests htest =>
    obtain ⟨-, hsucceed⟩ := forall_mem_cons.1 hsucceed
    obtain ⟨hfirst, hsecond⟩ := forall_mem_append.1 hsucceed
    rcases cases_of_saves hmain (hprinter.main _) hfirst with ⟨-, hr, -⟩ | ⟨hprinted, -, hpaths⟩
    · cases hr
    have hfits : j.FitsMainOnly accepts printer d ↔ printer.tests (headerLine j.input) j.package es = none := by
      refine ⟨?_, fun hnone => ⟨htests, src, gen, es, hprepares, hprinted, hnone⟩⟩
      rintro ⟨-, src', gen', es', hprepares', -, hnone⟩
      obtain ⟨-, rfl⟩ := hprepares.unique hprepares'
      exact hnone
    rw [hfits, filterMap_cons_none rfl, filterMap_append, map_append]
    rcases cases_of_saves htest (hprinter.tests _ _ _) hsecond with ⟨hnone, rfl, rfl, rfl⟩ | ⟨hsome, rfl, hpaths'⟩
    · refine ⟨fun h => absurd hnone h, fun _ => ⟨rfl, fun p => ?_⟩⟩
      rw [filterMap_nil, map_nil, List.append_nil, hpaths]
    · refine ⟨fun _ => .inr ⟨rfl, fun p => ?_⟩, fun h => absurd h hsome⟩
      rw [mem_append, hpaths, hpaths', outputs, htests]
      simp

/-- **A job writes all or nothing, or only the main file.** Let the formatter take whatever the printer prints, and let
every attempt of a run on files succeed. Then the job fails and leaves all files as they are, or it succeeds and writes
to exactly the paths that it is asked for. The exception is a job with tests whose main file is taken by the printer and
whose file of tests is refused: it fails behind the main file. A path that is written to can be read afterwards, and
all other files keep their content. -/
theorem all_or_nothing (j : Job) (accepts : Acceptance) (printer : Printer) (d d' : FileTree)
    (answer : Except JobError Unit) (log : Text) (hprinter : printer.IsSettled)
    (h : (j.run accepts FileTree.access printer).run d = ((answer, log), d'))
    (hsucceed : ∀ a ∈ j.attempts accepts printer d, a.succeeds = true) :
    (¬ j.FitsMainOnly accepts printer d →
      (∃ e, answer = .error e) ∧ j.written accepts printer d = [] ∧ d' = d ∨
      answer = .ok () ∧ ∀ path, path ∈ (j.written accepts printer d).map Prod.fst ↔ path ∈ j.outputs) ∧
    (j.FitsMainOnly accepts printer d → answer = .error (.generate (.tests .unprinted)) ∧
      ∀ path, path ∈ (j.written accepts printer d).map Prod.fst ↔ path = j.output) ∧
    (∀ w ∈ j.written accepts printer d, ∃ w' ∈ j.written accepts printer d,
      d.place? w'.1 = d.place? w.1 ∧ d'.read w.1 = .ok w'.2) ∧
    ∀ p, (∀ w ∈ j.written accepts printer d, d.place? w.1 ≠ some p) → d'.content? p = d.content? p := by
  have hends := ends_of_run h
  obtain ⟨hall, hhalf⟩ := hends.all_or_none hprinter hsucceed
  exact ⟨hall, hhalf, fun w hw => hends.writes.exists_read hw, fun p hp => hends.writes.content?_of_forall_ne hp⟩

theorem all_or_nothing_word : ∃ log d',
    ((withTestsFor ["Word"]).run Engine.accepts FileTree.access).run testNamed = ((.ok (), log), d') ∧
    (∀ a ∈ (withTestsFor ["Word"]).attempts Engine.accepts .standard testNamed, a.succeeds = true) ∧
    (∀ path, path ∈ ((withTestsFor ["Word"]).written Engine.accepts .standard testNamed).map Prod.fst ↔
      path ∈ (["a.go", "a_test.go"] : List Text)) ∧
    d'.content? ["a.rx"] = testNamed.content? ["a.rx"] := by
  obtain ⟨log, d', h⟩ : ∃ log d', ((withTestsFor ["Word"]).run Engine.accepts FileTree.access).run testNamed =
      ((.ok (), log), d') := Generator.exists_of_isOk (by decide +kernel)
  have hsucceed : ∀ a ∈ (withTestsFor ["Word"]).attempts Engine.accepts .standard testNamed, a.succeeds = true := by
    decide +kernel
  obtain ⟨hall, hhalf, -, hframe⟩ := all_or_nothing _ _ _ _ _ _ _ Printer.isSettled_standard h hsucceed
  have hplaces : ∀ w ∈ (withTestsFor ["Word"]).written Engine.accepts .standard testNamed,
      testNamed.place? w.1 ≠ some (["a.rx"] : Place) := by decide +kernel
  refine ⟨log, d', h, hsucceed, ?_, hframe _ hplaces⟩
  by_cases hfits : (withTestsFor ["Word"]).FitsMainOnly Engine.accepts .standard testNamed
  · cases (hhalf hfits).1
  · rcases hall hfits with ⟨⟨e, he⟩, -⟩ | ⟨-, hpaths⟩
    · cases he
    · exact hpaths

/-- A job with tests whose package declares a variable. -/
def declaringVariable : Job := { withTestsFor [] with package := "p\nvar x int" }

/-- A description without definitions. -/
def emptyDescription : FileTree := ⟨[], [(["a.rx"], [])]⟩

/-- **A job can fail and leave a new file behind,** although every attempt on a file succeeds. -/
theorem fails_halfway : ∃ e log d',
    (declaringVariable.run Engine.accepts FileTree.access).run emptyDescription = ((.error e, log), d') ∧
    (∀ a ∈ declaringVariable.attempts Engine.accepts .standard emptyDescription, a.succeeds = true) ∧
    emptyDescription.content? ["a.go"] = none ∧ d'.content? ["a.go"] =
      some "// Code generated by regcraft from a.rx. DO NOT EDIT.\n\npackage p\n\nvar x int\n" := by
  have hfails : ((declaringVariable.run Engine.accepts FileTree.access).run emptyDescription).1.1.isOk = false := by
    decide +kernel
  have hcontent : ((declaringVariable.run Engine.accepts FileTree.access).run emptyDescription).2.content?
      ["a.go"] = some "// Code generated by regcraft from a.rx. DO NOT EDIT.\n\npackage p\n\nvar x int\n" := by
    decide +kernel
  cases h : (declaringVariable.run Engine.accepts FileTree.access).run emptyDescription with
  | mk r d' =>
    obtain ⟨answer, log⟩ := r
    rw [h] at hfails hcontent
    cases answer with
    | ok => cases hfails
    | error e => exact ⟨e, log, d', rfl, by decide +kernel, rfl, hcontent⟩

end Job
end RegexBuilder.Generate
