/-
# What is saved can be read

`FileTree.Saves` lists the ways in which saving a file can end, with all that is tried. What is written once can be
written again, so it ends well if the printer takes the file, the first write succeeds and what is printed has a
layout. The file of tests goes to another place than the main file, so both can be read in the end
(`FileTree.read_of_saves`).
-/

import RegexBuilder.Proofs.Attempt

namespace RegexBuilder.FileTree

open List

open Generate (Printer SaveError save testPath)

variable {d d₁ d' : FileTree} {path t output : Text} {printer : Printer} {printed : Option Text}
  {attempts more : List Attempt} {answer : Except SaveError Unit}

/-! ### Saving a file -/

/-- The ways in which saving can end on a tree of files: all that is tried, the answer, and the tree after it. -/
inductive Saves (printer : Printer) (path : Text) (printed : Option Text) (d : FileTree) :
    List Attempt → Except SaveError Unit → FileTree → Prop where
  | unprinted (hprinted : printed = none) : Saves printer path printed d [] (.error .unprinted) d
  | unwritten {t : Text} {e : FileError} (hprinted : printed = some t) :
    Saves printer path printed d [.write path t (.error e)] (.error (.unwritten e)) d
  | unformatted {t : Text} {d₁ : FileTree} (hprinted : printed = some t) (hwrite : d.write path t = .ok d₁)
    (hformat : printer.format t = none) :
    Saves printer path printed d [.write path t (.ok ()), .read path (.ok t)] (.error .unformatted) d₁
  | saved {t u : Text} {d₁ d₂ : FileTree} (hprinted : printed = some t) (hwrite : d.write path t = .ok d₁)
    (hformat : printer.format t = some u) (hrewrite : d₁.write path u = .ok d₂) :
    Saves printer path printed d [.write path t (.ok ()), .read path (.ok t), .write path u (.ok ())] (.ok ()) d₂

/-- **Saving on a tree ends in one of the listed ways.** -/
theorem saves_of_run (h : (save printer access.observed path printed).run (d, attempts) = (answer, (d', more))) :
    ∃ tried, more = attempts ++ tried ∧ d.Saves printer path printed tried answer d' := by
  unfold save at h
  cases printed with
  | none =>
    cases h
    exact ⟨[], (List.append_nil _).symm, .unprinted rfl⟩
  | some t =>
    have hrun := run_observed_write d attempts path t
    cases hwrite : d.write path t with
    | error =>
      rw [hwrite] at hrun
      dsimp only at h
      rw [run_bind_of_run hrun] at h
      cases h
      exact ⟨_, rfl, .unwritten rfl⟩
    | ok d₁ =>
      rw [hwrite] at hrun
      dsimp only at h
      rw [run_bind_of_run hrun] at h
      -- what was written is what is read back
      have hread := run_observed_read d₁ (attempts ++ [.write path t (.ok ())]) path
      rw [read_of_write hwrite] at hread
      dsimp only at h
      rw [run_bind_of_run hread] at h
      dsimp only at h
      cases hformat : printer.format t with
      | none =>
        rw [hformat] at h
        cases h
        exact ⟨_, by simp, .unformatted rfl hwrite hformat⟩
      | some u =>
        obtain ⟨d₂, hrewrite⟩ := exists_rewrite hwrite u
        have hrerun := run_observed_write d₁ (attempts ++ [.write path t (.ok ())] ++ [.read path (.ok t)]) path u
        rw [hrewrite] at hrerun
        rw [hformat] at h
        dsimp only at h
        rw [run_bind_of_run hrerun] at h
        cases h
        exact ⟨_, by simp, .saved rfl hwrite hformat hrewrite⟩

namespace Saves

/-- The writes of saving make the tree after it. -/
theorem writes (h : d.Saves printer path printed attempts answer d') :
    d.Writes (attempts.filterMap Attempt.written?) d' := by
  cases h with
  | unprinted | unwritten => exact .nil
  | unformatted hprinted hwrite => exact .cons hwrite .nil
  | saved hprinted hwrite hformat hrewrite => exact .cons hwrite (.cons hrewrite .nil)

/-- What saving writes, it writes to its path: what was printed, or that in its layout. -/
theorem forall_written {P : Text → Prop} (h : d.Saves printer path printed attempts answer d')
    (hprinted : ∀ t, printed = some t → P t) (hformat : ∀ t u, P t → printer.format t = some u → P u) :
    ∀ w ∈ attempts.filterMap Attempt.written?, w.1 = path ∧ P w.2 := by
  cases h with
  | unprinted | unwritten => exact nofun
  | unformatted ht => exact forall_mem_singleton.2 ⟨rfl, hprinted _ ht⟩
  | saved ht hwrite hu =>
    have hfirst := hprinted _ ht
    exact forall_mem_cons.2 ⟨⟨rfl, hfirst⟩, forall_mem_singleton.2 ⟨rfl, hformat _ _ hfirst hu⟩⟩

/-- **A file that is saved has the text of the printer, in its layout.** -/
theorem exists_read (h : d.Saves printer path printed attempts (.ok ()) d') :
    ∃ t u, printed = some t ∧ printer.format t = some u ∧ d'.read path = .ok u := by
  cases h with
  | saved hprinted hwrite hformat hrewrite => exact ⟨_, _, hprinted, hformat, read_of_write hrewrite⟩

end Saves

/-- Saving, when it is not watched. -/
theorem exists_saves (h : (save printer access path printed).run d = (answer, d')) :
    ∃ attempts, d.Saves printer path printed attempts answer d' := by
  obtain ⟨more, hobserved⟩ := Observes.save access printer path printed d []
  rw [h, List.nil_append] at hobserved
  obtain ⟨tried, -, hsaves⟩ := saves_of_run hobserved
  exact ⟨tried, hsaves⟩

/-! ### The file of tests -/

/-- The path of the file of tests has another ending. -/
theorem exists_testPath (output : Text) : ∃ front ending : Text, output = front ++ ending ∧
    testPath output = front ++ "_test.go" ∧ Glyph.char '/' ∉ ending ∧ ending ≠ ("_test.go" : Text) := by
  unfold testPath Text.dropEnding
  split
  · next h =>
    obtain ⟨front, hfront⟩ := isSuffixOf_iff_suffix.1 h
    refine ⟨front, ".go", hfront.symm, ?_, by decide, by decide⟩
    rw [← hfront]
    simp
  · exact ⟨output, [], (List.append_nil _).symm, rfl, nofun, by decide⟩

/-- **The file of tests is another one.** -/
theorem place?_testPath_ne {p : Place} (h : d.place? output = some p) : d.place? (testPath output) ≠ some p := by
  obtain ⟨front, ending, houtput, hpath, hending, hother⟩ := exists_testPath output
  rw [hpath]
  rw [houtput] at h
  exact place?_ne_of_ending hending (by decide) hother h

/-- **Both files can be read after both are saved.** -/
theorem read_of_saves (hread : d.read output = .ok t)
    (h : d.Saves printer (testPath output) printed attempts answer d') : d'.read output = .ok t := by
  obtain ⟨p, hp, hcontent⟩ := read_eq_ok_iff.1 hread
  refine read_eq_ok_iff.2 ⟨p, (h.writes.place?_eq output).trans hp, ?_⟩
  rw [h.writes.content?_of_forall_ne fun w hw => ?_, hcontent]
  have hpath := (h.forall_written (P := fun _ => True) (fun _ _ => trivial) (fun _ _ _ _ => trivial) w hw).1
  rw [hpath]
  exact place?_testPath_ne hp

end RegexBuilder.FileTree
