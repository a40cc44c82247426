/-
# Generated files say what they are made from

The reader gets the package, the import of the engine and the declarations back from the text of a generated file
(`SourceFile.outline?_eq`), and finds one function in the file of tests (`outline?_testText?`). Both texts are lines,
each of which `Says` some tokens, and between the ends of statements outside of brackets these are the items of the
file (`outline?_of_itemTokens`).
-/

import RegexBuilder.Generate.SourceFile
import RegexBuilder.Proofs.Outcome
import RegexBuilder.Proofs.PackageText
import RegexBuilder.Proofs.StringLiteral

namespace RegexBuilder.Generate

open List Option

variable {t u : Text} {ts us : List Token}

/-! ### Items -/

/-- The brackets that are to be closed after some tokens, unless an item ends among them. -/
def nestAll : (closers : List Char) → List Token → Option (List Char)
  | closers, [] => some closers
  | closers, t :: rest =>
    if t = .stop ∧ closers = [] then none
    else do
      let closers ← nest closers t
      nestAll closers rest

variable {closers closers' : List Char} {items : List (List Token)} {name w value : Text} {e : Entry} {es : List Entry}

theorem nestAll_append (h : nestAll closers ts = some closers') : nestAll closers (ts ++ us) = nestAll closers' us := by
  induction ts generalizing closers with
  | nil =>
    cases h
    rfl
  | cons t ts ih =>
    rw [nestAll] at h
    rw [cons_append, nestAll]
    split at h
    · cases h
    · next hstop =>
      obtain ⟨c, hc, h⟩ := bind_eq_some_iff.1 h
      rw [if_neg hstop, hc]
      exact ih h

/-- Tokens that do not end an item are added to it. -/
theorem itemsFrom_append (h : nestAll closers ts = some closers') (item rest : List Token) :
    itemsFrom closers item (ts ++ rest) = itemsFrom closers' (item ++ ts) rest := by
  induction ts generalizing closers item with
  | nil =>
    cases h
    rw [List.append_nil, List.nil_append]
  | cons t ts ih =>
    rw [nestAll] at h
    split at h
    · cases h
    · next hstop =>
      obtain ⟨c, hc, h⟩ := bind_eq_some_iff.1 h
      rw [cons_append, itemsFrom, if_neg hstop, hc]
      have hrest := ih h (item ++ [t])
      rw [append_assoc] at hrest
      exact hrest

/-- Every bracket is closed, and no item ends. -/
def IsItem (ts : List Token) : Prop := nestAll [] ts = some []

/-- The tokens of items, each with an end behind it. -/
def itemTokens (items : List (List Token)) : List Token := items.flatMap (· ++ [.stop])

theorem itemsFrom_itemTokens (h : ∀ i ∈ items, IsItem i) : itemsFrom [] [] (itemTokens items) = some items := by
  induction items with
  | nil => rfl
  | cons i items ih =>
    obtain ⟨hi, hitems⟩ := forall_mem_cons.1 h
    have hrest : itemsFrom [] [] (itemTokens items) = some items := ih hitems
    rw [itemTokens, flatMap_cons, append_assoc, itemsFrom_append hi, List.nil_append,
      singleton_append, itemsFrom, if_pos ⟨rfl, rfl⟩]
    exact congrArg (Option.map (i :: ·)) hrest

/-- **A file of whole lines is read by its items.** -/
theorem outline?_of_itemTokens (h : Says t (itemTokens items)) (hitems : ∀ i ∈ items, IsItem i) :
    outline? t = Outline.ofItems? items := by
  have hvalid : t.isValid = true := by
    refine all_eq_true.2 fun g hg => ?_
    cases g with
    | char => rfl
    | stray => cases h.source _ hg
  have hsource : t.all isSourceGlyph = true := all_eq_true.2 h.source
  simp [outline?, Text.canonical_of_isValid hvalid, hsource, tokens?_eq h.scans, itemsFrom_itemTokens hitems]

/-- A declaration is no import. -/
theorem import?_eq_none {i : Item} (h : item? ts = some i) : import? ts = none := by
  unfold item? at h
  split at h
  · rfl
  · cases h

/-- The items of a file: its package, then imports, then declarations. -/
theorem Outline.ofItems?_eq {importItems declarationItems : List (List Token)} {imports : List Import}
    {items : List Item} (hname : isName name = true)
    (himports : Forall₂ (fun ts i => import? ts = some i) importItems imports)
    (hitems : Forall₂ (fun ts i => item? ts = some i) declarationItems items) :
    Outline.ofItems? ([.word "package", .word name] :: (importItems ++ declarationItems)) =
      some ⟨name, imports, items⟩ := by
  have hfirst : ∀ ts ∈ importItems, (import? ts).isSome = true := by
    intro ts hts
    obtain ⟨i, -, hi⟩ := exists_mem_of_forall₂ himports hts
    simp [hi]
  have hsecond : ∀ ts ∈ declarationItems, (import? ts).isSome = false := by
    intro ts hts
    obtain ⟨i, -, hi⟩ := exists_mem_of_forall₂ hitems hts
    simp [import?_eq_none hi]
  -- the declarations begin where the imports end
  obtain ⟨hnone, hall⟩ : declarationItems.takeWhile (fun ts => (import? ts).isSome) = [] ∧
      declarationItems.dropWhile (fun ts => (import? ts).isSome) = declarationItems := by
    cases declarationItems with
    | nil => exact ⟨rfl, rfl⟩
    | cons ts rest => simp [hsecond ts mem_cons_self]
  have htake : (importItems ++ declarationItems).takeWhile (fun ts => (import? ts).isSome) = importItems := by
    rw [takeWhile_append_of_pos hfirst, hnone, List.append_nil]
  have hdrop : (importItems ++ declarationItems).dropWhile (fun ts => (import? ts).isSome) = declarationItems := by
    rw [dropWhile_append_of_pos hfirst, hall]
  have hfilter : importItems.filterMap import? = imports := by
    clear hfirst htake hdrop
    induction himports with
    | nil => rfl
    | cons h _ ih => rw [filterMap_cons_some h, ih]
  simp [Outline.ofItems?, hname, htake, hdrop, hfilter, mapM_eq_some.2 hitems]

/-! ### Declarations -/

/-- What the initialiser of a variable says: a call of the function that compiles a pattern for the engine,
with the constant as the pattern. -/
def compileCall (engine : Engine) (constant : Text) : List Token :=
  [.word engine.name, .mark '.', .word "MustCompile", .mark '(', .word constant] ++
    (match engine with
      | .regexp2 => [.mark ',', .word "regexp2", .mark '.', .word "None"]
      | .regexp | .coregex => []) ++ [.mark ')']

/-- The package of the engine. -/
def engineImport : Engine → Import
  | .regexp2 => ⟨some "regexp2", Text.bytes "github.com/dlclark/regexp2"⟩
  | .regexp => ⟨none, Text.bytes "regexp"⟩
  | .coregex => ⟨some "coregex", Text.bytes "github.com/coregx/coregex"⟩

namespace Declaration

/-- What the declaration says. -/
def item : Declaration → Item
  | constant name _ value => .constant name value.bytes
  | compiled name _ engine value => .var name (compileCall engine value)

/-- The tokens of the declaration. -/
def tokens : Declaration → List Token
  | constant name _ value => [.word "const", .word name, .mark '=', .string value.bytes]
  | compiled name _ engine value =>
    [.word "var", .word name, .mark '='] ++ compileCall engine value

/-- All names in the declaration are ones, and what it is for is a word. -/
inductive IsWellNamed : Declaration → Prop where
  | constant {name of value : Text} (hname : isName name = true) (hof : ∀ g ∈ of, isNamePart g = true) :
    IsWellNamed (.constant name of value)
  | compiled {name of value : Text} {engine : Engine} (hname : isName name = true)
    (hof : ∀ g ∈ of, isNamePart g = true) (hvalue : isName value = true) :
    IsWellNamed (.compiled name of engine value)

end Declaration

theorem isNamePart_of_isWord (h : isWord w = true) : ∀ g ∈ w, isNamePart g = true := by
  cases w with
  | nil => nofun
  | cons =>
    obtain ⟨hg, hw⟩ := Bool.and_eq_true_iff.1 h
    exact forall_mem_cons.2 ⟨by simp [isNamePart, hg], all_eq_true.1 hw⟩

theorem source_of_isName (h : isName w = true) : ∀ g ∈ w, isSourceGlyph g = true := fun g hg =>
  (source_of_isNamePart (isNamePart_of_isWord (isWord_of_isName h) g hg)).1

/-- A line that tells what a name is for. -/
theorem says_commentLine (middle back : Text) {of : Text} (hname : isName name = true)
    (hof : ∀ g ∈ of, isNamePart g = true) (hmiddle : ∀ g ∈ middle, isSourceGlyph g = true ∧ g ≠ .char '\n')
    (hback : ∀ g ∈ back, isSourceGlyph g = true ∧ g ≠ .char '\n') :
    Says ("//" ++ (" " ++ (name ++ (middle ++ (of ++ back)))) ++ "\n") [] := by
  have hline : ∀ g ∈ (" " ++ (name ++ (middle ++ (of ++ back))) : Text), isSourceGlyph g = true ∧ g ≠ .char '\n' := by
    have hname := fun g hg => source_of_isNamePart (isNamePart_of_isWord (isWord_of_isName hname) g hg)
    have hof := fun g hg => source_of_isNamePart (hof g hg)
    simp only [forall_mem_append]
    exact ⟨by decide, hname, hmiddle, hof, hback⟩
  exact (IsComment.line (fun g hg => (hline g hg).1) fun h => (hline _ h).2 rfl).says_nil

/-- A line that gives a name a value. -/
theorem says_binding (kind : Text) {v : Text} {vs : List Token} (hkind : isWord kind = true)
    (hends : endsStatement kind = false) (hname : isName name = true) (hv : Scans (.gap false) v vs (.gap true))
    (hsource : ∀ g ∈ v, isSourceGlyph g = true) : Says (kind ++ (" " ++ (name ++ (" = " ++ (v ++ "\n")))))
      (.word kind :: .word name :: .mark '=' :: (vs ++ [.stop])) := by
  constructor
  · have hbreak : Scans (.gap true) "\n" [.stop] (.gap false) := by decide
    have hequals : Scans (.gap true) " = " [.mark '='] (.gap false) := by decide
    have hblank : Scans (.gap false) " " [] (.gap false) := by decide
    have hvalue := hequals.append (hv.append hbreak)
    have hbinding := Scans.name hname (endsWord_cons (by decide) _) hvalue false
    exact .keyword hkind hends (endsWord_cons (by decide) _) (hblank.nil_append hbinding) false
  · have hkind := fun g hg => (source_of_isNamePart (isNamePart_of_isWord hkind g hg)).1
    simp only [forall_mem_append]
    exact ⟨hkind, by decide, source_of_isName hname, by decide, hsource, by decide⟩

/-- An initialiser is a call with the constant in it. -/
theorem scans_initializer (h : isName value = true) (engine : Engine) :
    Scans (.gap false) (initializer engine value) (compileCall engine value) (.gap true) := by
  have hopen : Scans (.gap false) (engine.name ++ ".MustCompile(")
      [.word engine.name, .mark '.', .word "MustCompile", .mark '('] (.gap false) := by
    cases engine <;> decide +kernel
  have hclose : Scans (.gap true) ")" [.mark ')'] (.gap true) := by decide
  have hoptions : Scans (.gap true) ", regexp2.None)"
      [.mark ',', .word "regexp2", .mark '.', .word "None", .mark ')'] (.gap true) := by decide +kernel
  cases engine with
  | regexp2 =>
    have hcall := hopen.append (Scans.name h (endsWord_cons (by decide) _) hoptions false)
    rw [← append_assoc] at hcall
    exact hcall
  | regexp | coregex =>
    have hcall := hopen.append (Scans.name h (endsWord_cons (by decide) _) hclose false)
    rw [← append_assoc] at hcall
    exact hcall

theorem source_initializer (h : isName value = true) (engine : Engine) :
    ∀ g ∈ initializer engine value, isSourceGlyph g = true := by
  have hvalue := source_of_isName h
  cases engine with
  | regexp2 | regexp | coregex =>
    exact forall_mem_append.2 ⟨forall_mem_append.2 ⟨by decide, hvalue⟩, by decide⟩

namespace Declaration

variable {d : Declaration}

/-- **The lines of a declaration say what it declares.** -/
theorem IsWellNamed.says_text (h : d.IsWellNamed) : Says d.text (d.tokens ++ [.stop]) := by
  have hslashes : ("// " : Text) = "//" ++ " " := rfl
  have hpattern : (" pattern.\n" : Text) = " pattern." ++ "\n" := rfl
  cases h with
  | @constant name of value hname hof =>
    have hconst : ("const " : Text) = "const" ++ " " := rfl
    have hcomment := says_commentLine " is the source of the " " pattern." hname hof (by decide) (by decide)
    have hbinding := says_binding "const" (by decide) (by decide) hname (scans_quoted value false) (source_quoted value)
    have hlines := hcomment.append hbinding
    simp only [text, hslashes, hpattern, hconst, append_assoc] at hlines ⊢
    exact hlines
  | @compiled name of value engine hname hof hvalue =>
    have hvar : ("var " : Text) = "var" ++ " " := rfl
    have hcomment := says_commentLine " matches the " " pattern." hname hof (by decide) (by decide)
    have hbinding := says_binding "var" (by decide) (by decide) hname
      (scans_initializer hvalue engine) (source_initializer hvalue engine)
    have hlines := hcomment.append hbinding
    simp only [text, hslashes, hpattern, hvar, append_assoc] at hlines ⊢
    exact hlines

/-- A declaration is one item. -/
theorem isItem_tokens (d : Declaration) : IsItem d.tokens := by
  cases d with
  | constant => simp [IsItem, tokens, nestAll, nest, closingMarks]
  | compiled name of engine value =>
    cases engine <;> simp [IsItem, tokens, compileCall, nestAll, nest, closingMarks]

theorem IsWellNamed.item?_tokens (h : d.IsWellNamed) : item? d.tokens = some d.item := by
  cases h with
  | constant hname =>
    have hfunc : ("const" : Text) ≠ "func" := by decide
    have hvar : ("const" : Text) ≠ "var" := by decide
    simp [tokens, item, item?, hname, hfunc, hvar]
  | compiled hname =>
    have hfunc : ("var" : Text) ≠ "func" := by decide
    simp [tokens, item, item?, hname, hfunc, compileCall]

end Declaration

/-! ### Imports -/

/-- The tokens of an import. -/
def Import.tokens (i : Import) : List Token :=
  .word "import" :: (i.localName.toList.map Token.word ++ [.string i.path])

theorem isItem_importTokens (i : Import) : IsItem i.tokens := by
  cases i with
  | mk localName path => cases localName <;> simp [IsItem, Import.tokens, nestAll, nest]

theorem says_importLine (engine : Engine) : Says (importLine engine) ((engineImport engine).tokens ++ [.stop]) := by
  cases engine with
  | regexp2 | regexp | coregex => exact ⟨by decide +kernel, by decide⟩

theorem import?_engineImport (engine : Engine) : import? (engineImport engine).tokens = some (engineImport engine) := by
  cases engine with
  | regexp2 | regexp | coregex => decide +kernel

/-! ### Files -/

theorem says_top {headers : List Text} {top : Text}
    (h : (headers.mapM headerComment?).map (fun cs => cs.flatMap (· ++ Text.ofString "\n")) = some top) :
    Says top [] := by
  obtain ⟨cs, hcs, rfl⟩ := map_eq_some_iff.1 h
  have hall : ∀ c ∈ cs, Says (c ++ Text.ofString "\n") [] := by
    intro c hc
    obtain ⟨header, -, hheader⟩ := exists_mem_of_forall₂ (mapM_eq_some.1 hcs).flip hc
    obtain ⟨isBlock, hcomment⟩ := isComment_of_headerComment? hheader
    exact hcomment.says_nil
  have htop := Says.flatMap hall
  rwa [flatMap_eq_nil_iff.2 fun _ _ => rfl] at htop

namespace SourceFile

/-- The imports of a file. -/
def importList (f : SourceFile) : List Import := if f.declarations.isEmpty then [] else [engineImport f.engine]

/-- The imports are read as they are listed. -/
theorem says_imports (f : SourceFile) : Says f.imports (itemTokens (f.importList.map Import.tokens)) := by
  unfold imports importList
  split
  · exact .nil
  · simpa [itemTokens] using says_break.append (says_importLine f.engine)

/-- **The declarations are read as they are listed.** -/
theorem says_body {f : SourceFile} (h : ∀ d ∈ f.declarations, d.IsWellNamed) :
    Says f.body (itemTokens (f.declarations.map Declaration.tokens)) := by
  have hlines : ∀ d ∈ f.declarations, Says (Text.ofString "\n" ++ d.text) (d.tokens ++ [.stop]) :=
    fun d hd => says_break.append (h d hd).says_text
  simpa [body, itemTokens, flatMap_map] using Says.flatMap hlines

/-- **A generated file says what it is made from,** and nothing else. -/
theorem outline?_eq {f : SourceFile} (h : f.text? = some t) {clause : PackageClause}
    (hclause : PackageClause.read? f.package = some clause) (hd : ∀ d ∈ f.declarations, d.IsWellNamed) :
    outline? t = some ⟨clause.name, f.importList, f.declarations.map Declaration.item⟩ := by
  obtain ⟨top, htop, h⟩ := bind_eq_some_iff.1 h
  rw [packageText?, hclause] at h
  cases h
  have hplaced := PackageClause.wellPlaced_of_read? hclause
  have hfile := ((((says_top htop).append says_break).append hplaced.says_clause).append f.says_imports).append
    (says_body hd)
  have hitems : Says (top ++ "\n" ++ clause.text ++ "\n" ++ f.imports ++ f.body)
      (itemTokens ([.word "package", .word clause.name] ::
        (f.importList.map Import.tokens ++ f.declarations.map Declaration.tokens))) := by
    simpa [itemTokens] using hfile
  rw [outline?_of_itemTokens hitems]
  · refine Outline.ofItems?_eq hplaced.name ?_ ?_
    · rw [forall₂_map_left_iff, forall₂_same]
      intro i hi
      obtain rfl : i = engineImport f.engine := by
        by_cases hempty : f.declarations.isEmpty
        · simp [importList, hempty] at hi
        · simpa [importList, hempty] using hi
      exact import?_engineImport f.engine
    · rw [forall₂_map_left_iff, forall₂_map_right_iff, forall₂_same]
      exact fun d hd' => (hd d hd').item?_tokens
  · simp only [forall_mem_cons, forall_mem_append, List.forall_mem_map]
    exact ⟨rfl, fun i _ => isItem_importTokens i, fun d _ => d.isItem_tokens⟩

end SourceFile

/-! ### The file of tests -/

/-- The tokens of a row of the table of tests. -/
def rowTokens (e : Entry) : List Token :=
  [.mark '\x7b', .string e.name.bytes, .mark ',', .word e.ident, .mark ',', .word e.constant, .mark '\x7d']

/-- The names in the entry are ones. -/
structure Entry.IsWellNamed (e : Entry) : Prop where
  name : ∀ g ∈ e.name, isNamePart g = true
  ident : isName e.ident = true
  constant : isName e.constant = true

theorem scans_testRow (h : e.IsWellNamed) (due : Bool) : Scans (.gap due) (testRow e) (rowTokens e) (.gap true) := by
  have hopen : Scans (.gap due) "\x7b" [.mark '\x7b'] (.gap false) := by cases due <;> decide
  have hcomma : Scans (.gap true) ", " [.mark ','] (.gap false) := by decide
  have hclose : Scans (.gap true) "\x7d" [.mark '\x7d'] (.gap true) := by decide
  have hconstant := hcomma.append (Scans.name h.constant (endsWord_cons (by decide) _) hclose false)
  have hident := hcomma.append (Scans.name h.ident (endsWord_cons (by decide) _) hconstant false)
  have hrow := hopen.append ((scans_quoted e.name false).append hident)
  simp only [testRow, append_assoc]
  exact hrow

theorem source_testRow (h : e.IsWellNamed) : ∀ g ∈ testRow e, isSourceGlyph g = true := by
  simp only [testRow, forall_mem_append]
  exact ⟨⟨⟨⟨⟨⟨by decide, source_quoted e.name⟩, by decide⟩, source_of_isName h.ident⟩, by decide⟩,
    source_of_isName h.constant⟩, by decide⟩

theorem nestAll_rowTokens (closers : List Char) (e : Entry) (us : List Token) :
    nestAll closers (rowTokens e ++ us) = nestAll closers us := by
  simp [rowTokens, nestAll, nest, closingMarks]

/-- The rows of the table of tests, with commas between them. -/
theorem exists_scans_rows (h : ∀ e ∈ es, e.IsWellNamed) :
    ∃ ts due, Scans (.gap false) (Text.join ", " (es.map testRow)) ts (.gap due) ∧
      ∀ closers us, nestAll closers (ts ++ us) = nestAll closers us := by
  have hcomma : Scans (.gap true) ", " [.mark ','] (.gap false) := by decide
  induction es with
  | nil => exact ⟨[], false, .nil _, fun _ _ => rfl⟩
  | cons e es ih =>
    obtain ⟨he, hes⟩ := forall_mem_cons.1 h
    have hrow := scans_testRow he false
    cases es with
    | nil => exact ⟨rowTokens e, true, by simpa [Text.join] using hrow, fun c us => nestAll_rowTokens c e us⟩
    | cons =>
      obtain ⟨ts, due, hscans, hnest⟩ := ih hes
      refine ⟨rowTokens e ++ ([.mark ','] ++ ts), due, ?_, fun c us => ?_⟩
      · have hrows := hrow.append (hcomma.append hscans)
        simpa [Text.join, intercalate_cons_cons] using hrows
      · rw [append_assoc, nestAll_rowTokens, append_assoc, singleton_append]
        simp [nestAll, nest, closingMarks, hnest]

/-- All glyphs of the rows may stand in a file. -/
theorem source_rows (h : ∀ e ∈ es, e.IsWellNamed) : ∀ g ∈ Text.join ", " (es.map testRow), isSourceGlyph g = true := by
  induction es with
  | nil => nofun
  | cons e es ih =>
    obtain ⟨he, hes⟩ := forall_mem_cons.1 h
    cases es with
    | nil => simpa [Text.join] using source_testRow he
    | cons =>
      have hrest := ih hes
      simp only [Text.join, map_cons, intercalate_cons_cons, forall_mem_append] at hrest ⊢
      exact ⟨⟨source_testRow he, by decide⟩, hrest⟩

/-- The function of the file of tests up to the rows of its table. -/
def testOpening : Text :=
  "func " ++ testFunction ++ "(t *testing.T) \x7b\n" ++
    "\ttests := []struct \x7b\n" ++
    "\t\tname string\n" ++
    "\t\tre   interface \x7b\n" ++
    "\t\t\tString() string\n" ++
    "\t\t\x7d\n" ++
    "\t\twant string\n" ++
    "\t\x7d\x7b"

/-- The function of the file of tests behind its table. -/
def testClosing : Text :=
  "\tfor _, tt := range tests \x7b\n" ++
    "\t\tif got := tt.re.String(); got != tt.want \x7b\n" ++
    "\t\t\tt.Errorf(\"%s.String() = %q, want %q\", tt.name, got, tt.want)\n" ++
    "\t\t\x7d\n" ++
    "\t\x7d\n" ++
    "\x7d\n"

/-- The import of the file of tests. -/
def testImport : Import := ⟨none, Text.bytes "testing"⟩

theorem testBody_eq (es : List Entry) : testBody es = "import \"testing\"\n\n" ++
      (testOpening ++ (Text.join ", " (es.map testRow) ++ ("\x7d\n\n" ++ testClosing))) := by
  -- the equations of so long a text take too long to derive
  delta testBody testOpening testClosing
  simp only [append_assoc]

/-- The reader's way through a fixed text is computed. -/
theorem exists_scans_of_any {s : Scan} {p : Scan × List Token → Bool} (h : (s.run t).any p = true) :
    ∃ s' ts, Scans s t ts s' ∧ p (s', ts) = true := by
  cases hrun : s.run t with
  | none => simp [hrun] at h
  | some q => exact ⟨q.1, q.2, hrun, by simpa [hrun] using h⟩

theorem exists_scans_testOpening : ∃ ts, Scans (.gap false) testOpening ts (.gap false) ∧
    ts.take 3 = [.word "func", .word testFunction, .mark '('] ∧ nestAll [] ts = some ['\x7d', '\x7d'] := by
  have h : ((Scan.gap false).run testOpening).any (fun p => p.1 = .gap false ∧
      p.2.take 3 = [.word "func", .word testFunction, .mark '('] ∧
        nestAll [] p.2 = some ['\x7d', '\x7d']) = true := by decide +kernel
  obtain ⟨s, ts, hscans, hts⟩ := exists_scans_of_any h
  obtain ⟨rfl, hfront, hnest⟩ := of_decide_eq_true hts
  exact ⟨ts, hscans, hfront, hnest⟩

theorem exists_scans_testClosing : ∃ ts, Scans (.gap false) testClosing (ts ++ [.stop]) (.gap false) ∧
    nestAll ['\x7d'] ts = some [] := by
  have h : ((Scan.gap false).run testClosing).any (fun p => p.1 = .gap false ∧
      p.2.getLast? = some .stop ∧ nestAll ['\x7d'] p.2.dropLast = some []) = true := by decide +kernel
  obtain ⟨s, ts, hscans, hts⟩ := exists_scans_of_any h
  obtain ⟨rfl, hlast, hnest⟩ := of_decide_eq_true hts
  have hts : ts.dropLast ++ [.stop] = ts := dropLast_append_getLast? _ hlast
  exact ⟨ts.dropLast, hts.symm ▸ hscans, hnest⟩

/-- The function of the file of tests is one item. -/
theorem exists_says_testFunction (h : ∀ e ∈ es, e.IsWellNamed) :
    ∃ ts, Says (testOpening ++ (Text.join ", " (es.map testRow) ++ ("\x7d\n\n" ++ testClosing))) (ts ++ [.stop]) ∧
      IsItem ts ∧ item? ts = some (.function testFunction) := by
  obtain ⟨front, hfront, hhead, hnestFront⟩ := exists_scans_testOpening
  obtain ⟨rows, due, hrows, hnestRows⟩ := exists_scans_rows h
  have hbrace : Scans (.gap due) "\x7d\n\n" [.mark '\x7d', .stop] (.gap false) := by cases due <;> decide
  obtain ⟨back, hback, hnestBack⟩ := exists_scans_testClosing
  refine ⟨front ++ (rows ++ ([.mark '\x7d', .stop] ++ back)), ⟨?_, ?_⟩, ?_, ?_⟩
  · have hscans := hfront.append (hrows.append (hbrace.append hback))
    simp only [append_assoc] at hscans ⊢
    exact hscans
  · simp only [forall_mem_append]
    exact ⟨by decide +kernel, source_rows h, by decide, by decide +kernel⟩
  · rw [IsItem, nestAll_append hnestFront, hnestRows]
    exact hnestBack
  · have hname : isName testFunction = true := by decide +kernel
    rw [← take_append_drop 3 front, hhead]
    simp [item?, hname]

/-- **The file of tests declares one function.** -/
theorem outline?_testText? {header package : Text} (h : testText? header package es = some t)
    (hes : ∀ e ∈ es, e.IsWellNamed) : ∃ clause, PackageClause.read? package = some clause ∧
      outline? t = some ⟨clause.name, [testImport], [.function testFunction]⟩ := by
  obtain ⟨top, htop, h⟩ := bind_eq_some_iff.1 h
  obtain ⟨clause, hclause, h⟩ := bind_eq_some_iff.1 h
  cases h
  obtain ⟨isBlock, hcomment⟩ := isComment_of_headerComment? htop
  have hplaced := PackageClause.wellPlaced_of_read? hclause
  obtain ⟨ts, hfunction, hitem, hitem?⟩ := exists_says_testFunction hes
  have himport : Says "import \"testing\"\n\n" (testImport.tokens ++ [.stop]) := ⟨by decide +kernel, by decide⟩
  refine ⟨clause, hclause, ?_⟩
  have hfile := hcomment.says_nil.append (says_break.append (hplaced.says_clause.append (says_break.append
    (himport.append hfunction))))
  have hbreaks : ("\n\n" : Text) = "\n" ++ "\n" := rfl
  have hitems : Says (top ++ "\n\n" ++ clause.text ++ "\n\n" ++ testBody es)
      (itemTokens ([.word "package", .word clause.name] :: ([testImport.tokens] ++ [ts]))) := by
    rw [testBody_eq]
    simpa [itemTokens, hbreaks] using hfile
  rw [outline?_of_itemTokens hitems]
  · refine Outline.ofItems?_eq hplaced.name (.cons ?_ .nil) (.cons hitem? .nil)
    decide +kernel
  · simp only [forall_mem_cons, forall_mem_append]
    exact ⟨rfl, ⟨isItem_importTokens _, nofun⟩, hitem, nofun⟩

end RegexBuilder.Generate
