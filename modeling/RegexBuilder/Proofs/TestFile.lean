/-
# The file of tests beside the generated file

The generated file declares the names that the definitions generate, and the file of tests beside it declares one
function, with which no definition is compared (`Job.disjoint_declared_iff`, `Job.testPatterns_declared_twice`). The
names of definitions are identifiers because the lexer gives no other tokens of that kind (`isIdentifier_of_load`).
-/

import RegexBuilder.Proofs.Lossless
import RegexBuilder.Proofs.Parsed
import RegexBuilder.Proofs.Resolved
import RegexBuilder.Proofs.Selection

namespace RegexBuilder

open List

/-! ### Names of loaded definitions -/

namespace Description

variable {file src : Text}

/-- The name of a definition is an identifier, because it is the value of a token of that kind. -/
theorem isIdentifier_of_parse {ds : List Definition} (h : parse file src = .ok ds) :
    ∀ d ∈ ds, isIdentifier d.name = true := by
  intro d hd
  obtain ⟨ts, -, -, -, hwrites, hlexed, -⟩ := parse_reads h
  have hsymbol : .ident d.name ∈ symbols ds := mem_flatMap.2 ⟨d, hd, by simp [Definition.symbols]⟩
  obtain ⟨t, ht, hkind, hvalue⟩ := exists_mem_of_forall₂ hwrites.flip hsymbol
  have hholds : t.kind.Holds t.value := hlexed t ht
  rw [hkind, hvalue] at hholds
  exact hholds

theorem isIdentifier_of_load {lib : Library} (h : load file src = .ok lib) :
    ∀ p ∈ lib.patterns, isIdentifier p.name = true := by
  intro p hp
  obtain ⟨ds, hparse, hresolve⟩ := bind_eq_ok.1 h
  obtain ⟨-, ts, -, rfl⟩ := resolve_eq_ok.1 hresolve
  obtain ⟨d, hd, hname, -⟩ := mem_namedFrom.1 hp
  rw [hname]
  exact isIdentifier_of_parse (mapError_eq_ok.1 hparse) d (mem_of_getElem? hd)

/-- A selection has no definitions of its own. -/
theorem Library.patterns_subset_of_select {lib selected : Library} {names : List Text}
    (h : lib.select names = .ok selected) : selected.patterns ⊆ lib.patterns := by
  obtain ⟨-, rfl⟩ := select_eq_ok.1 h
  split_ifs
  · exact List.Subset.refl _
  · exact fst_pick_sublist.subset

end Description

namespace Generate

open Description (NamedPattern Library isIdentifier load)

/-! ### The name of the test -/

/-- Of the letters, only `t` and `T` have the capital `T`. -/
theorem toUpper_eq_T {c : Char} (hc : c.isAlpha = true) (h : c.toUpper = 'T') : c = 'T' ∨ c = 't' :=
  of_isAlphanum (fun c => c.toUpper = 'T' → c = 'T' ∨ c = 't') (by decide +kernel) (isAlphanum_of_isAlpha hc) h

/-- Two names have a variable that begins with `T` and goes on with `rest`. -/
theorem identifier_eq_T {name rest : Text} :
    identifier name = .char 'T' :: rest ↔ name = .char 'T' :: rest ∨ name = .char 't' :: rest := by
  constructor
  · intro h
    unfold identifier at h
    split at h
    · next c tail =>
      split_ifs at h with hc
      · obtain ⟨hfirst, rfl⟩ := List.cons.inj h
        rcases toUpper_eq_T hc (Glyph.char.inj hfirst) with rfl | rfl
        · exact .inl rfl
        · exact .inr rfl
      · exact absurd (List.cons.inj h).1 (by decide)
    · exact absurd (List.cons.inj h).1 (by decide)
  · rintro (rfl | rfl)
    · rfl
    · rfl

/-- Two names have a variable that is called like the test. -/
theorem identifier_eq_testFunction {name : Text} :
    identifier name = testFunction ↔ name = "TestPatterns" ∨ name = "testPatterns" := by
  have hupper : Text.ofString "TestPatterns" = .char 'T' :: Text.ofString "estPatterns" := by decide
  have hlower : Text.ofString "testPatterns" = .char 't' :: Text.ofString "estPatterns" := by decide
  rw [testFunction, hupper, hlower]
  exact identifier_eq_T

/-- No constant is called like the test: their last letters differ. -/
theorem patternConstant_ne_testFunction (name : Text) : patternConstant name ≠ testFunction := by
  intro h
  have hlast := congrArg List.getLast? h
  rw [patternConstant, getLast?_append_of_ne_nil _ (by decide)] at hlast
  exact absurd hlast (by decide)

theorem testFunction_mem_generatedNames {ds : List NamedPattern} :
    testFunction ∈ generatedNames ds ↔ ∃ d ∈ ds, d.name = "TestPatterns" ∨ d.name = "testPatterns" := by
  simp only [generatedNames, mem_flatMap, generated, mem_pair, ← identifier_eq_testFunction]
  refine exists_congr fun d => and_congr_right fun _ => ?_
  rw [or_iff_left (patternConstant_ne_testFunction d.name).symm, eq_comm]

/-! ### What the files declare -/

/-- **The generated file declares the names that the definitions generate.** -/
theorem names_zipWith_declares {ds : List NamedPattern} {ts : List Text} (h : ds.length = ts.length) (used : Engine) :
    ((List.zipWith (declares used) ds ts).flatten.map Item.name).Perm (generatedNames ds) := by
  induction ds generalizing ts with
  | nil => exact .refl _
  | cons d ds ih =>
    cases ts with
    | nil => cases h
    | cons =>
      -- a constant stands before its variable in the file, and behind it in the table of names
      exact (List.Perm.swap _ _ []).append (ih (Nat.succ.inj h))

/-- **What a run with tests leaves:** two files of one package, one with the names that the definitions generate and
one with the test. -/
theorem Generator.exists_outlines {c : Config} {accepts : Acceptance} {gen' : Generator} {d d' : FileTree}
    (hnames : ∀ p ∈ c.library.patterns, isIdentifier p.name = true) (htests : c.withTests = true)
    (h : ((Generator.new c).generate accepts FileTree.access).run d = ((.ok (), gen'), d')) :
    ∃ t u main tests, d'.read c.output = .ok t ∧ d'.read (testPath c.output) = .ok u ∧
      outline? t = some main ∧ outline? u = some tests ∧ main.package = tests.package ∧
      main.declared.Perm (generatedNames c.library.patterns) ∧
      (generatedNames c.library.patterns).Nodup ∧ tests.declared = [testFunction] := by
  obtain ⟨es, t, hentries, htext, hread, hwritten⟩ := exists_written h
  obtain ⟨u, htest, hread'⟩ := hwritten htests
  obtain ⟨hall, hnodup⟩ := forall₂_and_nodup_of_entries rfl hentries
  obtain ⟨clause, hclause, htests⟩ := outline?_testText? htest (isWellNamed_of_entries hall hnames)
  have hmain := outline?_of_entries hall hnames hclause htext
  have hlength : c.library.patterns.length = (es.map Entry.source).length := by
    rw [length_map, hall.length_eq]
  exact ⟨t, u, _, _, hread, hread', hmain, htests, rfl, names_zipWith_declares hlength _, hnodup, rfl⟩

namespace Job

variable {j : Job} {accepts : Acceptance} {d d' : FileTree} {log : Text}

/-! ### Jobs -/

/-- The definitions that the job chooses from the description, if it can be read. -/
def selection? (j : Job) (d : FileTree) : Option Library := do
  let src ← (d.read j.input).toOption
  let lib ← (load j.input src).toOption
  (lib.select j.definitions).toOption

theorem selection?_eq_some {selected : Library} : j.selection? d = some selected ↔ ∃ src lib,
    d.read j.input = .ok src ∧ load j.input src = .ok lib ∧ lib.select j.definitions = .ok selected := by
  simp only [selection?, Option.bind_eq_bind, Option.bind_eq_some_iff, toOption_eq_some, ← exists_and_left]

theorem isIdentifier_of_selection? {selected : Library} (h : j.selection? d = some selected) :
    ∀ p ∈ selected.patterns, isIdentifier p.name = true := by
  obtain ⟨src, lib, -, hload, hselect⟩ := selection?_eq_some.1 h
  intro p hp
  exact Description.isIdentifier_of_load hload p (Library.patterns_subset_of_select hselect hp)

/-- **A job that succeeds** has chosen definitions and run a generator for them. -/
theorem exists_of_run (h : (j.run accepts FileTree.access).run d = ((.ok (), log), d')) :
    ∃ engine selected gen', j.selection? d = some selected ∧
      ((Generator.new (j.config engine selected)).generate accepts FileTree.access).run d = ((.ok (), gen'), d') := by
  have hruns := runs_of_run h
  generalize hanswer : (Except.ok () : Except JobError Unit) = answer at hruns
  cases hruns with
  | invalid | unreadable | unloaded | unknownName => cases hanswer
  | @generated engine src lib selected answer gen' s₁ _ hvalid hread hload hselect hrun =>
    have hok : answer = .ok () := mapError_eq_ok.1 hanswer.symm
    subst hok
    -- reading leaves the tree as it is
    obtain ⟨hsrc, rfl⟩ : d.read j.input = .ok src ∧ d = s₁ := Prod.mk.inj hread
    exact ⟨engine, selected, gen', selection?_eq_some.2 ⟨src, lib, hsrc, hload, hselect⟩, hrun⟩

/-- **What a job with tests leaves.** -/
theorem exists_outlines (htests : j.withTests = true)
    (h : (j.run accepts FileTree.access).run d = ((.ok (), log), d')) :
    ∃ selected t u main tests, j.selection? d = some selected ∧
      d'.read j.output = .ok t ∧ d'.read (testPath j.output) = .ok u ∧
      outline? t = some main ∧ outline? u = some tests ∧ main.package = tests.package ∧
      main.declared.Perm (generatedNames selected.patterns) ∧
      (generatedNames selected.patterns).Nodup ∧ tests.declared = [testFunction] := by
  obtain ⟨engine, selected, gen', hselection, hrun⟩ := exists_of_run h
  obtain ⟨t, u, main, tests, hfiles⟩ := Generator.exists_outlines (c := j.config engine selected)
    (isIdentifier_of_selection? hselection) htests hrun
  exact ⟨selected, t, u, main, tests, hselection, hfiles⟩

/-- **When the file of tests fits the generated file.** Let a job with tests succeed. Then both files can be
read and belong to the same package. The generated file declares no name twice, and the file of tests declares
only its function. The files have no declaration in common exactly if no chosen definition is called
`TestPatterns` or `testPatterns`. -/
theorem disjoint_declared_iff (j : Job) (accepts : Acceptance) (d d' : FileTree) (log : Text)
    (htests : j.withTests = true) (h : (j.run accepts FileTree.access).run d = ((.ok (), log), d')) :
    ∃ selected t u main tests, j.selection? d = some selected ∧
      d'.read j.output = .ok t ∧ d'.read (testPath j.output) = .ok u ∧
      outline? t = some main ∧ outline? u = some tests ∧ main.package = tests.package ∧
      main.declared.Nodup ∧ tests.declared = ["TestPatterns"] ∧
      (main.declared.Disjoint tests.declared ↔
        ∀ p ∈ selected.patterns, p.name ≠ "TestPatterns" ∧ p.name ≠ "testPatterns") := by
  obtain ⟨selected, t, u, main, tests, hselection, ht, hu, hmain, houtline, hpackage, hperm, hnodup,
    hdeclared⟩ := exists_outlines htests h
  refine ⟨selected, t, u, main, tests, hselection, ht, hu, hmain, houtline, hpackage,
    hperm.nodup_iff.2 hnodup, hdeclared, ?_⟩
  rw [hdeclared, disjoint_singleton, hperm.mem_iff, testFunction_mem_generatedNames]
  simp only [not_exists, not_and, not_or]

/-- A job that generates a file and its tests from `a.rx`. -/
def withTestsFor (definitions : List Text) : Job where
  input := "a.rx"
  output := "a.go"
  package := "p"
  engine := []
  definitions := definitions
  withTests := true
  verbose := false

/-- A description whose second definition is called like the test. -/
def testNamed : FileTree := ⟨[], [(["a.rx"], "pattern Word = \"a\"; pattern TestPatterns = \"b\";")]⟩

/-- As long as the second definition is not chosen, the files fit. -/
theorem disjoint_declared_iff_word : ∃ log d' t u main tests, (withTestsFor ["Word"]).withTests = true ∧
    ((withTestsFor ["Word"]).run Engine.accepts FileTree.access).run testNamed = ((.ok (), log), d') ∧
    d'.read "a.go" = .ok t ∧ d'.read "a_test.go" = .ok u ∧ outline? t = some main ∧ outline? u = some tests ∧
    main.declared.Disjoint tests.declared := by
  obtain ⟨log, d', h⟩ : ∃ log d', ((withTestsFor ["Word"]).run Engine.accepts FileTree.access).run testNamed =
      ((.ok (), log), d') := Generator.exists_of_isOk (by decide +kernel)
  obtain ⟨selected, t, u, main, tests, hselection, ht, hu, hmain, htests, -, -, -, hiff⟩ :=
    disjoint_declared_iff (withTestsFor ["Word"]) Engine.accepts testNamed d' log rfl h
  have hchosen : ∀ selected ∈ (withTestsFor ["Word"]).selection? testNamed, ∀ p ∈ selected.patterns,
      p.name ≠ "TestPatterns" ∧ p.name ≠ "testPatterns" := by decide +kernel
  exact ⟨log, d', t, u, main, tests, rfl, h, ht, hu, hmain, htests, hiff.2 (hchosen selected hselection)⟩

/-- **Both files of a job can declare the same name:** nothing keeps a definition from being called like the
test. -/
theorem testPatterns_declared_twice : ∃ log d' t u main tests,
    ((withTestsFor []).run Engine.accepts FileTree.access).run testNamed = ((.ok (), log), d') ∧
    d'.read "a.go" = .ok t ∧ d'.read "a_test.go" = .ok u ∧ outline? t = some main ∧ outline? u = some tests ∧
    testFunction ∈ main.declared ∧ testFunction ∈ tests.declared := by
  obtain ⟨log, d', h⟩ : ∃ log d', ((withTestsFor []).run Engine.accepts FileTree.access).run testNamed =
      ((.ok (), log), d') := Generator.exists_of_isOk (by decide +kernel)
  obtain ⟨selected, t, u, main, tests, hselection, ht, hu, hmain, htests, -, hperm, -, hdeclared⟩ :=
    exists_outlines (j := withTestsFor []) rfl h
  have hchosen : ∀ selected ∈ (withTestsFor []).selection? testNamed,
      testFunction ∈ generatedNames selected.patterns := by decide +kernel
  refine ⟨log, d', t, u, main, tests, h, ht, hu, hmain, htests, ?_, ?_⟩
  · exact hperm.mem_iff.2 (hchosen selected hselection)
  · rw [hdeclared]
    exact mem_singleton_self _

end Job
end Generate
end RegexBuilder
