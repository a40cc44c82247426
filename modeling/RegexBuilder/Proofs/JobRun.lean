/-
# What a run of a job does

A job reads one file, and may then save one or two. `Job.Ends` lists the ways in which a run can end on a tree of
files, with all that is tried on the way. The texts come from a printer, about which nothing is assumed here.
-/

import RegexBuilder.Proofs.Generation
import RegexBuilder.Proofs.WrittenFiles

namespace RegexBuilder.Generate

open FileTree List
namespace Job

open Description (Library load)

variable {j : Job} {accepts : Acceptance} {printer : Printer} {d d' : FileTree} {src : Text} {gen : Generator}
  {es : List Entry}

/-- The paths that the job is asked to write to. -/
def outputs (j : Job) : List Text := j.output :: if j.withTests then [testPath j.output] else []

/-- What the job tries with the files of the tree. -/
def attempts (j : Job) (accepts : Acceptance) (printer : Printer) (d : FileTree) : List Attempt :=
  ((j.run accepts FileTree.access.observed printer).run (d, [])).2.2

/-! ### What comes before the first write -/

/-- The job gets as far as saving: its options are in order, the description `src` has the chosen definitions, and the
generator `gen` for them has the entries `es`. -/
structure Prepares (j : Job) (accepts : Acceptance) (d : FileTree) (src : Text) (gen : Generator)
    (es : List Entry) : Prop where
  read : d.read j.input = .ok src
  new : ∃ engine lib selected, j.validate = .ok engine ∧ load j.input src = .ok lib ∧
    lib.select j.definitions = .ok selected ∧ gen = Generator.new (j.config engine selected)
  entries : gen.entries accepts = .ok es

/-- The generator and its entries are fixed by the job and the files. -/
theorem Prepares.unique {src' : Text} {gen' : Generator} {es' : List Entry} (h : j.Prepares accepts d src gen es)
    (h' : j.Prepares accepts d src' gen' es') : gen' = gen ∧ es' = es := by
  obtain ⟨hread, ⟨engine, lib, selected, hvalid, hload, hselect, rfl⟩, hentries⟩ := h
  obtain ⟨hread', ⟨engine', lib', selected', hvalid', hload', hselect', rfl⟩, hentries'⟩ := h'
  cases hread.symm.trans hread'
  cases hvalid.symm.trans hvalid'
  cases hload.symm.trans hload'
  cases hselect.symm.trans hselect'
  cases hentries.symm.trans hentries'
  exact ⟨rfl, rfl⟩

/-! ### Runs on a tree of files -/

/-- The ways in which a run can end on a tree of files: all that is tried, the answer, and the tree after it. -/
inductive Ends (j : Job) (accepts : Acceptance) (printer : Printer) (d : FileTree) :
    List Attempt → Except JobError Unit → FileTree → Prop where
  | unprepared {attempts : List Attempt} {e : JobError} (hwritten : attempts.filterMap Attempt.written? = [])
    (hnone : ∀ src gen es, ¬ j.Prepares accepts d src gen es) : Ends j accepts printer d attempts (.error e) d
  | main {src : Text} {gen : Generator} {es : List Entry} {saves : List Attempt} {r : Except SaveError Unit}
    {d₁ : FileTree} (hprepares : j.Prepares accepts d src gen es)
    (hmain : d.Saves printer j.output (printer.main (gen.extended es)) saves r d₁)
    (hlast : r = .ok () → j.withTests = false) :
    Ends j accepts printer d (.read j.input (.ok src) :: saves) (r.mapError (.generate ∘ .main)) d₁
  | tests {src : Text} {gen : Generator} {es : List Entry} {saves saves' : List Attempt} {r : Except SaveError Unit}
    {d₁ d₂ : FileTree} (hprepares : j.Prepares accepts d src gen es)
    (hmain : d.Saves printer j.output (printer.main (gen.extended es)) saves (.ok ()) d₁)
    (htests : j.withTests = true)
    (htest : d₁.Saves printer (testPath j.output) (printer.tests (headerLine j.input) j.package es) saves' r d₂) :
    Ends j accepts printer d (.read j.input (.ok src) :: (saves ++ saves')) (r.mapError (.generate ∘ .tests)) d₂

/-- A run of the generator, after the description is read. -/
theorem ends_of_generate {lib selected : Library} {engine : Engine} {more : List Attempt}
    {answer : Except GenerateError Unit} {gen' : Generator} (hvalid : j.validate = .ok engine)
    (hread : d.read j.input = .ok src) (hload : load j.input src = .ok lib)
    (hselect : lib.select j.definitions = .ok selected)
    (h : ((Generator.new (j.config engine selected)).generate accepts FileTree.access.observed printer).run
      (d, [.read j.input (.ok src)]) = ((answer, gen'), (d', more))) :
    j.Ends accepts printer d more (answer.mapError .generate) d' := by
  have hprepares : ∀ {es}, (Generator.new (j.config engine selected)).entries accepts = .ok es →
      j.Prepares accepts d src (Generator.new (j.config engine selected)) es := fun hentries =>
    ⟨hread, ⟨engine, lib, selected, hvalid, hload, hselect, rfl⟩, hentries⟩
  cases (Generator.generates_of_generate h).1 with
  | withoutEntries hentries =>
    refine .unprepared rfl ?_
    rintro src' gen es ⟨hread', ⟨engine', lib', selected', hvalid', hload', hselect', rfl⟩, hentries'⟩
    cases hread.symm.trans hread'
    cases hvalid.symm.trans hvalid'
    cases hload.symm.trans hload'
    cases hselect.symm.trans hselect'
    cases hentries.symm.trans hentries'
  | unsaved hentries hmain =>
    obtain ⟨saves, rfl, hsaves⟩ := saves_of_run hmain
    exact .main (hprepares hentries) hsaves nofun
  | alone hentries hmain htests =>
    obtain ⟨saves, rfl, hsaves⟩ := saves_of_run hmain
    exact .main (hprepares hentries) hsaves fun _ => htests
  | @tested es r s₁ _ hentries hmain htests htest =>
    obtain ⟨d₁, more₁⟩ := s₁
    obtain ⟨saves, rfl, hsaves⟩ := saves_of_run hmain
    obtain ⟨saves', rfl, hsaves'⟩ := saves_of_run htest
    have hends := Ends.tests (hprepares hentries) hsaves htests hsaves'
    cases r <;> exact hends

/-- **Every run on a tree ends in one of the listed ways.** -/
theorem ends_of_run {answer : Except JobError Unit} {log : Text}
    (h : (j.run accepts FileTree.access printer).run d = ((answer, log), d')) :
    j.Ends accepts printer d (j.attempts accepts printer d) answer d' := by
  obtain ⟨more, hobserved⟩ := Observes.job FileTree.access printer j accepts d []
  rw [h, List.nil_append] at hobserved
  have hattempts : j.attempts accepts printer d = more := congrArg (·.2.2) hobserved
  rw [hattempts]
  cases runs_of_run hobserved with
  | invalid hvalid =>
    refine .unprepared rfl ?_
    rintro src gen es ⟨-, ⟨engine, lib, selected, hvalid', -⟩, -⟩
    cases hvalid.symm.trans hvalid'
  | unreadable hvalid hread =>
    obtain ⟨hsrc, hs⟩ := of_observed_read hread
    cases hs
    refine .unprepared rfl ?_
    rintro src gen es ⟨hread', -, -⟩
    cases hsrc.symm.trans hread'
  | unloaded hvalid hread hload =>
    obtain ⟨hsrc, hs⟩ := of_observed_read hread
    cases hs
    refine .unprepared rfl ?_
    rintro src gen es ⟨hread', ⟨engine, lib, selected, -, hload', -⟩, -⟩
    cases hsrc.symm.trans hread'
    cases hload.symm.trans hload'
  | unknownName hvalid hread hload hselect =>
    obtain ⟨hsrc, hs⟩ := of_observed_read hread
    cases hs
    refine .unprepared rfl ?_
    rintro src gen es ⟨hread', ⟨engine, lib, selected, -, hload', hselect', -⟩, -⟩
    cases hsrc.symm.trans hread'
    cases hload.symm.trans hload'
    cases hselect.symm.trans hselect'
  | generated hvalid hread hload hselect hrun =>
    obtain ⟨hsrc, rfl⟩ := of_observed_read hread
    exact ends_of_generate hvalid hsrc hload hselect hrun

/-! ### What a run has written -/

namespace Ends

variable {attempts : List Attempt} {answer : Except JobError Unit}

/-- The paths that are written to make the tree after the run. -/
theorem writes (h : j.Ends accepts printer d attempts answer d') :
    d.Writes (attempts.filterMap Attempt.written?) d' := by
  cases h with
  | unprepared hwritten =>
    rw [hwritten]
    exact .nil
  | main hprepares hmain => exact hmain.writes
  | tests hprepares hmain htests htest =>
    rw [filterMap_cons_none rfl, filterMap_append]
    exact hmain.writes.append htest.writes

/-- **What is written** is written to one of the paths that the job may write to, and has whatever the texts of the
printer have and their layout keeps. -/
theorem forall_written {P : Text → Prop} (h : j.Ends accepts printer d attempts answer d')
    (hmain : ∀ f t, f.headers = [headerLine j.input] → printer.main f = some t → P t)
    (htests : ∀ es t, printer.tests (headerLine j.input) j.package es = some t → P t)
    (hformat : ∀ t u, P t → printer.format t = some u → P u) :
    ∀ w ∈ attempts.filterMap Attempt.written?, w.1 ∈ j.outputs ∧ P w.2 := by
  have hsaved : ∀ {src gen es saves r d₁}, j.Prepares accepts d src gen es →
      d.Saves printer j.output (printer.main (gen.extended es)) saves r d₁ →
      ∀ w ∈ saves.filterMap Attempt.written?, w.1 ∈ j.outputs ∧ P w.2 := by
    rintro src _ es saves r d₁ ⟨-, ⟨engine, lib, selected, -, -, -, rfl⟩, -⟩ hsaves w hw
    obtain ⟨hpath, hP⟩ := hsaves.forall_written (hmain _ · rfl) hformat w hw
    exact ⟨hpath ▸ mem_cons_self, hP⟩
  cases h with
  | unprepared hwritten =>
    rw [hwritten]
    exact nofun
  | main hprepares hsaves =>
    rw [filterMap_cons_none rfl]
    exact hsaved hprepares hsaves
  | tests hprepares hsaves hon hsaves' =>
    rw [filterMap_cons_none rfl, filterMap_append]
    refine forall_mem_append.2 ⟨hsaved hprepares hsaves, fun w hw => ?_⟩
    obtain ⟨hpath, hP⟩ := hsaves'.forall_written (htests _) hformat w hw
    rw [hpath, outputs, hon]
    exact ⟨mem_cons_of_mem _ mem_cons_self, hP⟩

/-- Nothing is written before the description is loaded. -/
theorem loads (h : j.Ends accepts printer d attempts answer d')
    (hwritten : attempts.filterMap Attempt.written? ≠ []) :
    ∃ src lib, d.read j.input = .ok src ∧ load j.input src = .ok lib := by
  cases h with
  | unprepared hnone => exact absurd hnone hwritten
  | main hprepares | tests hprepares =>
    obtain ⟨hread, ⟨engine, lib, selected, -, hload, -⟩, -⟩ := hprepares
    exact ⟨_, lib, hread, hload⟩

end Ends
end Job
end RegexBuilder.Generate
