/-
# What becomes of the description file

No path that the command writes to is compared with that of the description. A generated text is never a description
(`not_loads_of_isOpened`), so a description that is written over has changed. That holds of every printer whose texts
begin as sources do (`Printer.OpensSources`). Without a path for the generated file, the description is safe unless
its extension is `.go` (`Command.overwrites_input`).
-/

import RegexBuilder.Proofs.JobRun
import RegexBuilder.Proofs.Parsed

namespace RegexBuilder

open FileTree List Option
open Generate (Job JobError Printer testPath)

/-! ### How generated texts begin -/

namespace Generate

/-- A text that begins with a block comment, or with a comment of one line and the word `package` below it. -/
inductive IsOpened : Text → Prop where
  | block (rest : Text) : IsOpened ("/*" ++ rest)
  | line {y : Text} (hbreak : Glyph.char '\n' ∉ y) (rest : Text) : IsOpened ("//" ++ y ++ "\n\npackage" ++ rest)

/-- The texts of the printer for what a generator makes begin as sources do, also in their layout. -/
structure Printer.OpensSources (printer : Printer) : Prop where
  main : ∀ source f t, f.headers = [headerLine source] → printer.main f = some t → IsOpened t
  tests : ∀ source package es t, printer.tests (headerLine source) package es = some t → IsOpened t
  format : ∀ t u, IsOpened t → printer.format t = some u → IsOpened u

/-- A header comment above a package. -/
theorem isOpened_of_headerComment? {header comment : Text} (h : headerComment? header = some comment) (rest : Text) :
    IsOpened (comment ++ "\n\npackage" ++ rest) := by
  obtain ⟨isBlock, hcomment⟩ := isComment_of_headerComment? h
  cases hcomment with
  | line hsource hbreak => exact .line hbreak rest
  | block =>
    simp only [append_assoc]
    exact .block _

theorem PackageClause.exists_text (c : PackageClause) : ∃ rest, c.text = "package" ++ rest := by
  refine ⟨commentsText 0 0 c.before ++ c.nameSeparator ++ c.name ++ commentsText 1 c.line c.after, ?_⟩
  simp only [text, append_assoc]

theorem exists_packageText {f : SourceFile} {t : Text} (h : f.packageText? = some t) :
    ∃ rest, t = "package" ++ rest := by
  unfold SourceFile.packageText? at h
  split at h
  · next clause _ =>
    cases h
    exact clause.exists_text
  · split at h
    · obtain ⟨p, -, rfl⟩ := map_eq_some_iff.1 h
      exact ⟨" " ++ p.name ++ "\n\n" ++ p.first.text ++ p.first.textsBehind p.rest, rfl⟩
    · cases h

/-- **The standard printer** prints a header comment and behind an empty line the package. -/
theorem Printer.opensSources_standard : standard.OpensSources where
  main source f t hheaders h := by
    obtain ⟨top, htop, h⟩ := bind_eq_some_iff.1 h
    obtain ⟨package, hpackage, h⟩ := bind_eq_some_iff.1 h
    cases h
    obtain ⟨rest, rfl⟩ := exists_packageText hpackage
    cases hcomment : headerComment? (headerLine source) with
    | none => simp [SourceFile.top?, hheaders, hcomment] at htop
    | some comment =>
      have htop : top = comment ++ "\n" := by
        simpa [SourceFile.top?, hheaders, hcomment, eq_comm] using htop
      have htext : top ++ "\n" ++ ("package" ++ rest) ++ "\n" ++ f.imports ++ f.body =
          comment ++ "\n\npackage" ++ (rest ++ "\n" ++ f.imports ++ f.body) := by
        rw [htop, ← show (Text.ofString "\n" ++ ("\n" ++ "package") : Text) = "\n\npackage" from rfl]
        simp only [append_assoc]
      rw [htext]
      exact isOpened_of_headerComment? hcomment _
  tests source package es t h := by
    obtain ⟨comment, hcomment, h⟩ := bind_eq_some_iff.1 h
    obtain ⟨clause, -, h⟩ := bind_eq_some_iff.1 h
    cases h
    obtain ⟨rest, hrest⟩ := clause.exists_text
    have htext : comment ++ "\n\n" ++ clause.text ++ "\n\n" ++ testBody es =
        comment ++ "\n\npackage" ++ (rest ++ "\n\n" ++ testBody es) := by
      rw [hrest, ← show (Text.ofString "\n\n" ++ Text.ofString "package" : Text) = "\n\npackage" from rfl]
      simp only [append_assoc]
    rw [htext]
    exact isOpened_of_headerComment? hcomment _
  format t u ht h := by
    cases h
    exact ht

end Generate

/-! ### Generated texts are no descriptions -/

namespace Description

open Generate (IsOpened)

/-- A word that begins with `package` is a lexeme. -/
theorem lexeme?_package (rest : Text) : ∃ more rest' : Text, lexeme? ("package" ++ rest) =
    some (some .ident, "package" ++ more, rest') := by
  have hword : ∀ g ∈ ("package" : Text), isIdentRest g = true := by decide
  have hspan : spanGlyphs isIdentRest ("package" ++ rest) =
      ("package" ++ rest.takeWhile isIdentRest, rest.dropWhile isIdentRest) := by
    rw [spanGlyphs, takeWhile_append_of_pos hword, dropWhile_append_of_pos hword]
  exact ⟨_, _, congrArg (fun p => some (some TokenKind.ident, p)) hspan⟩

/-- **The first token of a generated text** is a word that begins with `package`. -/
theorem exists_token_of_isOpened {file t : Text} {ts : List Token} (h : IsOpened t)
    (hts : tokens file t = .ok ts) : ∃ u us more, ts = u :: us ∧ u.kind = .ident ∧ u.value = "package" ++ more := by
  cases h with
  | block =>
    -- no token starts with a slash and a star
    cases hts
  | @line y hbreak rest =>
    have hskip : lexeme? ("//" ++ y ++ "\n\npackage" ++ rest) = some (none, "//" ++ y, "\n\npackage" ++ rest) := by
      have hy : ∀ g ∈ y, g ≠ .char '\n' := fun g hg hg' => hbreak (hg' ▸ hg)
      rw [append_assoc, append_assoc]
      exact lexeme?_comment hy ("\npackage" ++ rest)
    have hbreaks : lexeme? ("\n\npackage" ++ rest) = some (none, Text.ofString "\n\n", "package" ++ rest) := by
      have hspace := lexeme?_of_isSpace (g := .char '\n') (by decide) ("\npackage" ++ rest)
      refine hspace.trans (congrArg (fun p => some (none, p)) ?_)
      refine spanGlyphs_append (l := "\n\n") (by decide) fun g hg => ?_
      obtain rfl : Glyph.char 'p' = g := Option.some.inj hg
      decide
    obtain ⟨more, rest', hword⟩ := lexeme?_package rest
    obtain ⟨steps, hsteps⟩ : ∃ n, ("//" ++ y ++ "\n\npackage" ++ rest : Text).length = n + 3 := by
      have hnine : ("\n\npackage" : Text).length = 9 := by decide
      refine ⟨_, (Nat.sub_add_cancel ?_).symm⟩
      simp only [length_append, hnine]
      omega
    rw [tokens, hsteps, tokensFrom_skip hskip, tokensFrom_skip hbreaks, tokensFrom_token hword] at hts
    obtain ⟨u, hu, hts⟩ := bind_eq_ok.1 hts
    obtain ⟨us, -, hts⟩ := bind_eq_ok.1 hts
    cases hts
    cases hu
    exact ⟨_, us, more, rfl, rfl, rfl⟩

/-- **A generated text is no description.** A description is empty or begins with `pattern`. -/
theorem not_loads_of_isOpened {file t : Text} (h : IsOpened t) (lib : Library) : load file t ≠ .ok lib := by
  intro hload
  obtain ⟨ds, hparse, -⟩ := bind_eq_ok.1 hload
  obtain ⟨ts, e, htokens, heof, hwrites, -⟩ := parse_reads (mapError_eq_ok.1 hparse)
  obtain ⟨u, us, more, hts, hkind, hvalue⟩ := exists_token_of_isOpened h htokens
  cases ds with
  | nil =>
    cases hwrites
    cases hts
    cases hkind.symm.trans heof
  | cons =>
    cases hwrites with
    | cons hfirst =>
      obtain ⟨rfl, -⟩ := List.cons.inj hts
      have hpattern := hfirst.2.symm.trans hvalue
      cases hpattern

end Description

/-! ### Endings of paths -/

/-- The last part of a text is what stands behind the last separator. -/
theorem Text.exists_getLastD_split (g : Glyph) (t : Text) :
    ∃ front, t = front ++ (t.split g).getLastD [] ∧ g ∉ (t.split g).getLastD [] := by
  induction t with
  | nil => exact ⟨[], rfl, nofun⟩
  | cons x t ih =>
    obtain ⟨p, ps, hp⟩ := exists_cons_of_ne_nil (split_ne_nil g t)
    rw [hp] at ih
    obtain ⟨front, ht, hlast⟩ := ih
    by_cases hx : x = g
    · refine ⟨x :: front, ?_, ?_⟩ <;> rw [split, if_pos hx, hp]
      · exact congrArg (x :: ·) ht
      · exact hlast
    · rw [split, if_neg hx, hp]
      cases ps with
      | nil =>
        -- no separator is left, so that the part is all there is
        have hnone : g ∉ t := by
          have hlength := length_split g t
          rw [hp] at hlength
          exact count_eq_zero.1 (Nat.succ.inj hlength).symm
        obtain ⟨rfl, -⟩ := List.cons.inj (hp.symm.trans (split_of_not_mem hnone))
        exact ⟨[], rfl, fun hmem => (mem_cons.1 hmem).elim (hx ∘ Eq.symm) hnone⟩
      | cons => exact ⟨x :: front, congrArg (x :: ·) ht, hlast⟩

theorem Text.dropEnding_append (front s : Text) : (front ++ s).dropEnding s = front := by
  rw [dropEnding, if_pos (isSuffixOf_iff_suffix.2 (suffix_append _ _))]
  simp

/-- A path ends in its extension, which is empty or begins with the last dot. -/
theorem Path.exists_extension (path : Text) : ∃ front, path = front ++ extension path ∧
    Glyph.char '/' ∉ extension path ∧ (extension path = [] ∨ (extension path).head? = some (.char '.')) := by
  obtain ⟨front, hpath, hslash⟩ := Text.exists_getLastD_split '/' path
  unfold extension
  dsimp only
  split
  · next hdot =>
    -- the last part, backwards up to its last dot
    have hback := takeWhile_append_dropWhile (p := (· ≠ Glyph.char '.')) (l := (lastPart path).reverse)
    cases hrest : (lastPart path).reverse.dropWhile (· ≠ Glyph.char '.') with
    | nil =>
      have hall := dropWhile_eq_nil_iff.1 hrest _ (mem_reverse.2 hdot)
      simp at hall
    | cons g rest =>
      have hg : g = .char '.' := by
        have hhead := head?_dropWhile_not (· ≠ Glyph.char '.') (lastPart path).reverse
        rw [hrest] at hhead
        simpa using hhead
      subst hg
      have hlast : lastPart path = rest.reverse ++
          Glyph.char '.' :: ((lastPart path).reverse.takeWhile (· ≠ Glyph.char '.')).reverse := by
        have hwhole := congrArg List.reverse hback
        rw [hrest, reverse_append, reverse_reverse, reverse_cons, append_assoc] at hwhole
        exact hwhole.symm
      refine ⟨front ++ rest.reverse, ?_, fun hmem => hslash ?_, .inr rfl⟩
      · rw [append_assoc, ← hlast]
        exact hpath
      · show Glyph.char '/' ∈ lastPart path
        rw [hlast]
        exact mem_append_right _ hmem
  · exact ⟨path, (List.append_nil _).symm, nofun, .inl rfl⟩

/-! ### The description of a job -/

namespace Generate.Job

variable {j : Job} {accepts : Acceptance} {printer : Printer} {d d' : FileTree} {attempts : List Attempt}
  {answer : Except JobError Unit}

/-- What is written begins as a source does. -/
theorem Ends.isOpened_written (h : j.Ends accepts printer d attempts answer d') (hprinter : printer.OpensSources) :
    ∀ w ∈ attempts.filterMap Attempt.written?, w.1 ∈ j.outputs ∧ IsOpened w.2 :=
  h.forall_written (hprinter.main _) (hprinter.tests _ _) hprinter.format

/-- **A job keeps its description exactly if it does not write to its place.** -/
theorem Ends.read_input_iff (h : j.Ends accepts printer d attempts answer d') (hprinter : printer.OpensSources) :
    d'.read j.input = d.read j.input ↔
      ∀ w ∈ attempts.filterMap Attempt.written?, d.place? w.1 ≠ d.place? j.input := by
  have hwrites := h.writes
  have hopened := h.isOpened_written hprinter
  have hloads := h.loads
  generalize attempts.filterMap Attempt.written? = ws at *
  by_cases hnone : ws = []
  · subst hnone
    cases hwrites
    exact iff_of_true rfl nofun
  · obtain ⟨src, lib, hread, hload⟩ := hloads hnone
    obtain ⟨p, hp, hcontent⟩ := read_eq_ok_iff.1 hread
    rw [hread, hp]
    constructor
    · rintro hkept w hw hplace
      obtain ⟨w', hw', -, hcontent'⟩ := hwrites.exists_content? ⟨w, hw, hplace⟩
      -- the description would be a generated text
      have hsame : d'.read j.input = .ok w'.2 :=
        read_eq_ok_iff.2 ⟨p, (hwrites.place?_eq _).trans hp, hcontent'⟩
      cases hkept.symm.trans hsame
      exact Description.not_loads_of_isOpened (hopened w' hw').2 lib hload
    · intro hplaces
      refine read_eq_ok_iff.2 ⟨p, (hwrites.place?_eq _).trans hp, ?_⟩
      rw [hwrites.content?_of_forall_ne hplaces, hcontent]

end Generate.Job

namespace Command

variable {accepts : Acceptance} {printer : Printer} {cwd : Text} {args : List Text} {d d' : FileTree}
  {outcome : Outcome} {fs : Flags}

/-! ### Runs of the command -/

/-- What the command tries with the files of the tree. -/
def attempts (accepts : Acceptance) (printer : Printer) (cwd : Text) (args : List Text) (d : FileTree) : List Attempt :=
  ((run accepts FileTree.access.observed cwd args printer).run (d, [])).2.2

/-- The paths that the command writes to, each with its content. -/
def written (accepts : Acceptance) (printer : Printer) (cwd : Text) (args : List Text) (d : FileTree) :
    List (Text × Text) :=
  (attempts accepts printer cwd args d).filterMap Attempt.written?

/-- Printing reads a file and writes none. -/
theorem run_print (accepts : Acceptance) (input : Text) (names : List Text) (verbose : Bool) (d : FileTree) :
    ∃ r, (print accepts FileTree.access.observed input names verbose).run (d, []) =
      (r, (d, [.read input (d.read input)])) := by
  have hload : ∃ r, (Description.loadFile FileTree.access.observed input).run (d, []) =
      (r, (d, [.read input (d.read input)])) := by
    rw [Description.loadFile, run_bind_of_run (run_observed_read d [] input)]
    cases d.read input <;> exact ⟨_, rfl⟩
  obtain ⟨r, hr⟩ := hload
  rw [print, run_bind_of_run hr]
  cases r with
  | error => exact ⟨_, rfl⟩
  | ok =>
    dsimp only
    split
    · exact ⟨_, rfl⟩
    · split <;> exact ⟨_, rfl⟩

/-- **A run writes nothing, or it is a run of the job that the flags describe.** -/
theorem exists_of_run (h : (run accepts FileTree.access cwd args printer).run d = (outcome, d')) :
    written accepts printer cwd args d = [] ∧ d' = d ∨
      ∃ fs answer log, Flags.start.parse args = .ok fs ∧ fs.isOn .print = false ∧
        ((job cwd fs).run accepts FileTree.access printer).run d = ((answer, log), d') ∧
        attempts accepts printer cwd args d = (job cwd fs).attempts accepts printer d := by
  obtain ⟨more, hobserved⟩ := Observes.command FileTree.access printer accepts cwd args d []
  rw [h, List.nil_append] at hobserved
  have hattempts : attempts accepts printer cwd args d = more := congrArg (·.2.2) hobserved
  unfold written
  rw [hattempts]
  unfold run at hobserved
  cases hflags : Flags.start.parse args with
  | error =>
    rw [hflags] at hobserved
    cases hobserved
    exact .inl ⟨rfl, rfl⟩
  | ok fs =>
    simp only [hflags, execute] at hobserved
    split at hobserved
    · cases hobserved
      exact .inl ⟨rfl, rfl⟩
    split at hobserved
    · cases hobserved
      exact .inl ⟨rfl, rfl⟩
    split at hobserved
    · cases hobserved
      exact .inl ⟨rfl, rfl⟩
    split at hobserved
    · obtain ⟨r, hr⟩ := run_print accepts fs.input fs.definitions (fs.isOn .verbose) d
      rw [run_bind_of_run hr] at hobserved
      left
      obtain ⟨r | r, log⟩ := r <;>
      · cases hobserved
        exact ⟨rfl, rfl⟩
    · next hprint =>
      obtain ⟨more', hjob⟩ := Observes.job FileTree.access printer (job cwd fs) accepts d []
      rw [run_bind_of_run hjob] at hobserved
      have hafter : (((job cwd fs).run accepts FileTree.access printer).run d).2 = d' ∧ more' = more := by
        split at hobserved <;>
        · cases hobserved
          exact ⟨rfl, rfl⟩
      obtain ⟨rfl, rfl⟩ := hafter
      exact .inr ⟨fs, _, _, rfl, Bool.eq_false_iff.2 hprint, rfl, (congrArg (·.2.2) hjob).symm⟩

/-- Without a path for the generated file, the paths of the job differ from that of the description only in their
endings. -/
theorem exists_ending_of_mem_outputs {path : Text} (hout : fs.output = []) (hpath : path ∈ (job cwd fs).outputs)
    {front : Text} (hinput : fs.input = front ++ Path.extension fs.input) :
    path = front ++ ".go" ∨ path = front ++ "_test.go" := by
  have houtput : (job cwd fs).output = front ++ ".go" := by
    have hdrop := Text.dropEnding_append front (Path.extension fs.input)
    rw [← hinput] at hdrop
    simp only [job, hout, if_true, defaultOutput, hdrop]
  rcases mem_cons.1 hpath with rfl | hpath
  · exact .inl houtput
  · split at hpath
    · rw [mem_singleton.1 hpath, houtput, testPath, Text.dropEnding_append]
      exact .inr rfl
    · exact nomatch hpath

/-- **Without a path for the generated file, a description with another extension than `.go` is not written to.** -/
theorem place?_ne_of_default {path : Text} (hout : fs.output = []) (hextension : Path.extension fs.input ≠ ".go")
    (hpath : path ∈ (job cwd fs).outputs) {p : Place} (hp : d.place? fs.input = some p) : d.place? path ≠ some p := by
  obtain ⟨front, hinput, hslash, hhead⟩ := Path.exists_extension fs.input
  have hp := (congrArg d.place? hinput).symm.trans hp
  rcases exists_ending_of_mem_outputs hout hpath hinput with rfl | rfl
  · exact place?_ne_of_ending hslash (by decide) hextension hp
  · refine place?_ne_of_ending hslash (by decide) (fun htests => ?_) hp
    rw [htests] at hhead
    revert hhead
    decide

/-- A description with the extension of generated files, in the directory `work`. -/
def goDescription : FileTree := ⟨["work"], [(["work", "a.go"], "pattern A = \"a\";")]⟩

/-- Arguments with another path for the generated file. -/
def apart : List Text := ["-in", "a.go", "-out", "b.go"]

end Command
end RegexBuilder
