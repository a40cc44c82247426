/-
# Generated files are lossless

From the file of a first successful run everything that went into it can be read back
(`Generator.generated_lossless`): such a run has an entry for each definition and has written its files
(`Generator.exists_written`), and the main file says what the entries say (`outline?_of_entries`).
-/

import RegexBuilder.Proofs.NameClash
import RegexBuilder.Proofs.SourceText
import RegexBuilder.Proofs.WrittenFiles

namespace RegexBuilder.Generate

open FileTree List

open Description (NamedPattern isIdentifier isIdentStart isIdentRest)

/-! ### What entries say -/

/-- What a definition declares if its pattern has the text `x`: a constant with its bytes, and a variable compiled from
the constant. -/
def declares (engine : Engine) (d : NamedPattern) (x : Text) : List Item :=
  [.constant (patternConstant d.name) x.bytes,
    .var (identifier d.name) (compileCall engine (patternConstant d.name))]

section

variable {accepts : Acceptance} {engine : Text} {g : Graph} {ds : List NamedPattern} {es : List Entry}

theorem isNamePart_of_isIdentifier {name : Text} (h : isIdentifier name = true) : ∀ g ∈ name, isNamePart g = true := by
  cases name with
  | nil => cases h
  | cons g rest =>
    obtain ⟨hstart, hrest⟩ := Bool.and_eq_true_iff.1 h
    have hg : isIdentRest g = true := by
      cases g with
      | stray => cases hstart
      | char =>
        rcases Bool.or_eq_true_iff.1 hstart with hc | hc
        · exact Bool.or_eq_true_iff.2 (.inl (isAlphanum_of_isAlpha hc))
        · exact Bool.or_eq_true_iff.2 (.inr hc)
    exact forall_mem_cons.2 ⟨isNamePart_of_isIdentRest hg, fun g hg =>
      isNamePart_of_isIdentRest (all_eq_true.1 hrest g hg)⟩

/-- The entry of an identifier has proper names. -/
theorem isWellNamed_of_isEntryOf {d : NamedPattern} {e : Entry} (h : IsEntryOf accepts engine g d e)
    (hname : isIdentifier d.name = true) : e.IsWellNamed := by
  obtain ⟨x, -, -, rfl⟩ := h
  exact ⟨isNamePart_of_isIdentifier hname, (isExported_identifier hname).1, (isExported_patternConstant hname).1⟩

theorem isWellNamed_of_entries (h : Forall₂ (IsEntryOf accepts engine g) ds es)
    (hnames : ∀ d ∈ ds, isIdentifier d.name = true) : ∀ e ∈ es, e.IsWellNamed := by
  intro e he
  obtain ⟨d, hd, hde⟩ := exists_mem_of_forall₂ h.flip he
  exact isWellNamed_of_isEntryOf hde (hnames d hd)

theorem items_of_entries (h : Forall₂ (IsEntryOf accepts engine g) ds es) (used : Engine) :
    (es.flatMap (Entry.declarations used)).map Declaration.item =
      (List.zipWith (declares used) ds (es.map Entry.source)).flatten := by
  induction h with
  | nil => rfl
  | cons hd _ ih =>
    obtain ⟨x, -, -, rfl⟩ := hd
    simp only [flatMap_cons, map_append, ih, map_cons, zipWith_cons_cons, flatten_cons]
    rfl

/-- The declarations of well-named entries are well named. -/
theorem isWellNamed_declarations (h : ∀ e ∈ es, e.IsWellNamed) (used : Engine) :
    ∀ d ∈ es.flatMap (Entry.declarations used), d.IsWellNamed := by
  intro d hd
  obtain ⟨e, he, hd⟩ := mem_flatMap.1 hd
  obtain ⟨hname, hident, hconstant⟩ := h e he
  rcases mem_pair.1 hd with rfl | rfl
  · exact .constant hconstant hname
  · exact .compiled hident hname hconstant

/-- **A file that is made from entries says what they say.** -/
theorem outline?_of_entries (h : Forall₂ (IsEntryOf accepts engine g) ds es)
    (hnames : ∀ d ∈ ds, isIdentifier d.name = true) {header package t : Text} {used : Engine}
    {clause : PackageClause} (hclause : PackageClause.read? package = some clause)
    (ht : (SourceFile.extend ⟨[], package, used, []⟩ header es).text? = some t) :
    outline? t = some ⟨clause.name, if ds = [] then [] else [engineImport used],
      (List.zipWith (declares used) ds (es.map Entry.source)).flatten⟩ := by
  have hwell := isWellNamed_declarations (isWellNamed_of_entries h hnames) used
  have houtline := SourceFile.outline?_eq ht hclause (by simpa [SourceFile.extend] using hwell)
  have hitems := items_of_entries h used
  have hempty : (es.flatMap (Entry.declarations used)).isEmpty = true ↔ ds = [] := by
    cases h with
    | nil => simp
    | cons => simp [Entry.declarations]
  rw [houtline]
  simp only [SourceFile.extend, SourceFile.importList, List.nil_append, hitems, hempty]

end

namespace Generator

variable {accepts : Acceptance} {σ : Type} {files : Files (StateM σ)}

/-! ### The first run -/

/-- Rendering leaves the files alone, and also what is put together so far. -/
theorem run_after_of_not_mem {calls : List Call} (h : Call.generate ∉ calls) (gen : Generator) (s : σ) :
    ∃ gen', (gen.after accepts files calls).run s = (gen', s) ∧ gen'.config = gen.config ∧
      gen'.file = gen.file := by
  induction calls generalizing gen with
  | nil => exact ⟨gen, rfl, rfl, rfl⟩
  | cons k calls ih =>
    cases k with
    | generate => exact absurd mem_cons_self h
    | render =>
      obtain ⟨gen', hrun, hconfig, hfile⟩ := ih (fun hmem => h (mem_cons_of_mem _ hmem)) (gen.render accepts).2
      exact ⟨gen', hrun, hconfig, hfile⟩

/-- **A run that succeeds has an entry for each definition** and has written what they make. -/
theorem exists_written {gen gen' : Generator} {d d' : FileTree}
    (h : (gen.generate accepts FileTree.access).run d = ((.ok (), gen'), d')) :
    ∃ es t, gen.entries accepts = .ok es ∧ (gen.extended es).text? = some t ∧
      d'.read gen.config.output = .ok t ∧
      (gen.config.withTests = true → ∃ u,
        testText? (headerLine gen.config.source) gen.config.package es = some u ∧
        d'.read (testPath gen.config.output) = .ok u) := by
  have hends := (generates_of_generate h).1
  generalize hanswer : (Except.ok () : Except GenerateError Unit) = answer at hends
  cases hends with
  | withoutEntries | unsaved => cases hanswer
  | alone hentries hmain htests =>
    obtain ⟨_, hsaves⟩ := exists_saves hmain
    obtain ⟨t, u, htext, hformat, hread⟩ := hsaves.exists_read
    cases hformat
    exact ⟨_, t, hentries, htext, hread, fun h => nomatch htests.symm.trans h⟩
  | tested hentries hmain htests htest =>
    obtain rfl := mapError_eq_ok.1 hanswer.symm
    obtain ⟨_, hsaves⟩ := exists_saves hmain
    obtain ⟨_, hsaves'⟩ := exists_saves htest
    obtain ⟨t, _, htext, hformat, hread⟩ := hsaves.exists_read
    obtain ⟨u, _, htext', hformat', hread'⟩ := hsaves'.exists_read
    cases hformat
    cases hformat'
    exact ⟨_, t, hentries, htext, read_of_saves hread hsaves', fun _ => ⟨u, htext', hread'⟩⟩

/-- The entries of the definitions, whatever was asked of the generator before. No two of them generate the
same name. -/
theorem forall₂_and_nodup_of_entries {gen : Generator} {c : Config} {es : List Entry}
    (hconfig : gen.config = (Generator.new c).config) (h : gen.entries accepts = .ok es) :
    Forall₂ (IsEntryOf accepts (engineName c) c.library.graph) c.library.patterns es ∧
      (generatedNames c.library.patterns).Nodup := by
  rw [Generator.entries, hconfig] at h
  have hempty : (generatedNames []).Nodup := nodup_nil
  exact (entries_eq_ok hempty).1 h

/-- An engine that takes a text exists. -/
theorem ofName?_of_isEntryOf {engine : Text} {g : Graph} {d : NamedPattern} {e : Entry}
    (h : IsEntryOf accepts engine g d e) : Engine.ofName? engine = some ((Engine.ofName? engine).getD .regexp2) := by
  obtain ⟨x, -, hcheck, -⟩ := h
  obtain ⟨used, rfl, -⟩ := Acceptance.check_eq_ok.1 hcheck
  rw [Engine.ofName?_name]
  rfl

/-- **The generated file is lossless.** Let the names of all definitions be identifiers and the package be
a name, and let the first run of a generator succeed, after any renderings. Then the file that is written
declares for each definition, in their order and nothing else, a constant whose string stands for the bytes
of the text of the pattern and a variable that is compiled from the constant by the engine. Rendering gives the
same texts at any time. -/
theorem generated_lossless (c : Config) (accepts : Acceptance) (calls : List Call) (d d' : FileTree)
    (gen' : Generator) (hfirst : Call.generate ∉ calls)
    (hnames : ∀ p ∈ c.library.patterns, isIdentifier p.name = true) (hpackage : isName c.package = true)
    (h : (do
        let gen ← (Generator.new c).after accepts FileTree.access calls
        gen.generate accepts FileTree.access : StateM FileTree _).run d = ((.ok (), gen'), d')) :
    ∃ t ts engine, d'.read c.output = .ok t ∧
      (c.library.patterns ≠ [] → Engine.ofName? (engineName c) = some engine) ∧
      Forall₂ (fun p x => ∃ r, c.library.graph.render (some p.node) = .ok r ∧ r.text = x)
        c.library.patterns ts ∧
      outline? t = some ⟨c.package, if c.library.patterns = [] then [] else [engineImport engine],
        (List.zipWith (declares engine) c.library.patterns ts).flatten⟩ ∧
      ∀ (σ : Type) (files : Files (StateM σ)) (calls : List Call) (s : σ),
        ((((Generator.new c).after accepts files calls).run s).1.render accepts).1 = .ok ts := by
  obtain ⟨gen, hrun, hconfig, hfile⟩ := run_after_of_not_mem hfirst (Generator.new c) d
  rw [StateT.run_bind, hrun] at h
  obtain ⟨es, t, hentries, htext, hread, -⟩ := exists_written h
  have hall := (forall₂_and_nodup_of_entries hconfig hentries).1
  rw [extended, hfile] at htext
  have houtline := outline?_of_entries hall hnames (PackageClause.read?_of_isName hpackage) htext
  refine ⟨t, es.map Entry.source, (Engine.ofName? (engineName c)).getD .regexp2, ?_, ?_, ?_, houtline, ?_⟩
  · rw [hconfig] at hread
    exact hread
  · intro hne
    obtain ⟨p, hp⟩ := exists_mem_of_ne_nil _ hne
    obtain ⟨e, -, he⟩ := exists_mem_of_forall₂ hall hp
    exact ofName?_of_isEntryOf he
  · rw [forall₂_map_right_iff]
    refine hall.imp ?_
    rintro p e ⟨x, hx, -, rfl⟩
    exact ⟨x, hx, rfl⟩
  · intro σ files calls s
    rw [Generator.entries, hconfig] at hentries
    show (Generator.entries _ accepts).map _ = _
    rw [Generator.entries, config_after, hentries]
    rfl

theorem exists_of_isOk {ε α β : Type} {r : (Except ε Unit × α) × β} (h : r.1.1.isOk = true) :
    ∃ a b, r = ((.ok (), a), b) := by
  obtain ⟨⟨answer, a⟩, b⟩ := r
  cases answer with
  | error => cases h
  | ok => exact ⟨a, b, rfl⟩

/-- Two definitions, the texts of which have quotation marks, backslashes, control characters and bytes that
are part of no character. -/
def hardToQuote : Config where
  library := ⟨⟨#[.leaf (.literal "\"\\\n"), .leaf (.raw [.stray 0xFF, .char '\x00', .char '\u00E9'])]⟩,
    [⟨"quote", ⟨[], 1, 1⟩, 0⟩, ⟨"_bytes", ⟨[], 2, 1⟩, 1⟩]⟩
  source := "t.rx"
  output := "a.go"
  package := "p"
  engine := []
  withTests := true
  verbose := false

theorem generated_lossless_hardToQuote : ∃ gen' d' t, Call.generate ∉ [Call.render] ∧
    (∀ p ∈ hardToQuote.library.patterns, isIdentifier p.name = true) ∧ isName hardToQuote.package = true ∧
    (do
      let gen ← (Generator.new hardToQuote).after Engine.accepts FileTree.access [.render]
      gen.generate Engine.accepts FileTree.access : StateM FileTree _).run ⟨[], []⟩ = ((.ok (), gen'), d') ∧
    d'.read "a.go" = .ok t ∧
    outline? t = some ⟨"p", [⟨some "regexp2", Text.bytes "github.com/dlclark/regexp2"⟩],
      [.constant "QuotePattern" [34, 92, 92, 10],
        .var "Quote" (compileCall .regexp2 "QuotePattern"),
        .constant "X_bytesPattern" [255, 0, 195, 169],
        .var "X_bytes" (compileCall .regexp2 "X_bytesPattern")]⟩ := by
  have hfirst : Call.generate ∉ [Call.render] := by decide
  have hnames : ∀ p ∈ hardToQuote.library.patterns, isIdentifier p.name = true := by decide +kernel
  have hpackage : isName hardToQuote.package = true := by decide +kernel
  obtain ⟨gen', d', h⟩ : ∃ gen' d', (do
      let gen ← (Generator.new hardToQuote).after Engine.accepts FileTree.access [.render]
      gen.generate Engine.accepts FileTree.access : StateM FileTree _).run ⟨[], []⟩ =
        ((.ok (), gen'), d') := exists_of_isOk (by decide +kernel)
  obtain ⟨t, ts, engine, hread, hengine, hts, houtline, -⟩ := generated_lossless hardToQuote Engine.accepts
    [.render] ⟨[], []⟩ d' gen' hfirst hnames hpackage h
  have hquote : hardToQuote.library.graph.render (some 0) = .ok ⟨"\"\\\\\n", false⟩ := by decide +kernel
  have hbytes : hardToQuote.library.graph.render (some 1) =
      .ok ⟨[.stray 0xFF, .char '\x00', .char '\u00E9'], false⟩ := by decide +kernel
  have htexts : ts = [Text.ofString "\"\\\\\n", [.stray 0xFF, .char '\x00', .char '\u00E9']] := by
    rcases hts with _ | ⟨⟨r₀, hr₀, rfl⟩, _ | ⟨⟨r₁, hr₁, rfl⟩, _ | _⟩⟩
    cases hquote.symm.trans hr₀
    cases hbytes.symm.trans hr₁
    rfl
  have hused : engine = .regexp2 := by
    have hname : Engine.ofName? (engineName hardToQuote) = some .regexp2 := by decide +kernel
    exact Option.some.inj ((hengine (by decide)).symm.trans hname)
  subst htexts hused
  refine ⟨gen', d', t, hfirst, hnames, hpackage, h, hread, ?_⟩
  rw [houtline]
  decide +kernel

end Generator
end RegexBuilder.Generate
