/-
# Names in generated files are distinct

Each definition generates two names, that of its variable and that of its constant. The entries go through the
definitions with a table of the names generated so far (`ownersOf`). So the whole list has entries exactly if all
names are distinct (`entries_eq_ok`), and a clash names two of its definitions (`entries_eq_clash`).
-/

import RegexBuilder.Proofs.Gates
import RegexBuilder.Proofs.Generation
import RegexBuilder.Proofs.Symbols
import Mathlib.Data.List.Nodup

namespace RegexBuilder.Generate

open List

open Description (NamedPattern isAlpha_iff isIdentifier isIdentStart isIdentRest)

/-! ### Names of the generated language -/

variable {c : Char} {name id first : Text} {ds : List NamedPattern}

theorem toNat_lt_of_isAlphanum (h : c.isAlphanum = true) : c.toNat < 128 := by
  rcases Bool.or_eq_true_iff.1 h with hletter | hdigit
  · have hnumbers := isAlpha_iff.1 hletter
    omega
  · simp only [Char.isDigit, Bool.and_eq_true, decide_eq_true_eq, UInt32.le_iff_toNat_le] at hdigit
    have h9 : '9'.val.toNat = 57 := rfl
    show c.val.toNat < 128
    omega

/-- What holds of all letters and digits of ASCII can be checked for the numbers below 128. -/
theorem of_isAlphanum (p : Char → Prop) (hp : ∀ n < 128, (Char.ofNat n).isAlphanum = true → p (Char.ofNat n))
    (h : c.isAlphanum = true) : p c := by
  have hc := hp c.toNat (toNat_lt_of_isAlphanum h)
  rw [Char.ofNat_toNat] at hc
  exact hc h

theorem isAlphanum_of_isAlpha (h : c.isAlpha = true) : c.isAlphanum = true := by
  simp [Char.isAlphanum, h]

theorem isLetter_of_isAlpha (h : c.isAlpha = true) : isLetter c = true :=
  of_isAlphanum (fun c => c.isAlpha = true → isLetter c = true) (by decide +kernel) (isAlphanum_of_isAlpha h) h

theorem isUpper_toUpper (h : c.isAlpha = true) : c.toUpper.isUpper = true :=
  of_isAlphanum (fun c => c.isAlpha = true → c.toUpper.isUpper = true) (by decide +kernel) (isAlphanum_of_isAlpha h) h

theorem isNamePart_of_isIdentRest {g : Glyph} (h : isIdentRest g = true) : isNamePart g = true := by
  cases g with
  | stray => cases h
  | char c =>
    rcases Bool.or_eq_true_iff.1 h with hc | hc
    · exact of_isAlphanum (fun c => isNamePart (.char c) = true) (by decide +kernel) hc
    · obtain rfl := of_decide_eq_true hc
      decide +kernel

/-- A name of the generated language that begins with a capital letter of ASCII, which makes it
visible in other packages. -/
def IsExported (t : Text) : Prop :=
  isName t = true ∧ ∃ c rest, t = .char c :: rest ∧ c.isUpper = true

/-- No keyword has a capital letter in front. -/
theorem not_mem_keywords (h : c.isUpper = true) (rest : Text) : (.char c :: rest) ∉ keywords := by
  have hall : ∀ w ∈ keywords, ∀ g ∈ w.head?, g.isChar Char.isUpper = false := by decide
  intro hmem
  exact absurd h (Bool.eq_false_iff.1 (hall _ hmem _ rfl))

theorem isExported_of_isUpper {rest : Text} (hc : c.isUpper = true) (hrest : ∀ g ∈ rest, isNamePart g = true) :
    IsExported (.char c :: rest) := by
  have halpha : c.isAlpha = true := Bool.or_eq_true_iff.2 (.inl hc)
  have hstart : isNameStart (.char c) = true := by
    show (isLetter c || decide (c = '_')) = true
    rw [isLetter_of_isAlpha halpha, Bool.true_or]
  refine ⟨?_, c, rest, rfl, hc⟩
  simp only [isName, hstart, all_eq_true.2 hrest, Bool.true_and, Bool.not_eq_true',
    contains_eq_mem, decide_eq_false_iff_not]
  exact not_mem_keywords hc rest

theorem isExported_append {s t : Text} (hs : IsExported s) (ht : ∀ g ∈ t, isNamePart g = true) :
    IsExported (s ++ t) := by
  obtain ⟨hname, c, rest, rfl, hc⟩ := hs
  refine isExported_of_isUpper hc fun g hg => ?_
  rcases mem_append.1 hg with hg | hg
  · simp only [isName, Bool.and_eq_true] at hname
    exact all_eq_true.1 hname.1.2 g hg
  · exact ht g hg

/-- The variable of an identifier has a proper name. -/
theorem isExported_identifier (h : isIdentifier name = true) : IsExported (identifier name) := by
  cases name with
  | nil => cases h
  | cons g rest =>
    obtain ⟨hstart, hrest⟩ := Bool.and_eq_true_iff.1 h
    have hrest : ∀ g ∈ rest, isNamePart g = true := fun g hg =>
      isNamePart_of_isIdentRest (all_eq_true.1 hrest g hg)
    cases g with
    | stray => cases hstart
    | char c =>
      by_cases hc : c.isAlpha = true
      · rw [identifier, if_pos hc]
        exact isExported_of_isUpper (isUpper_toUpper hc) hrest
      · rw [identifier, if_neg hc]
        have hunderscore : isNamePart (.char c) = true := by
          have hc : c = '_' := by simpa [isIdentStart, Glyph.isChar, hc] using hstart
          subst hc
          decide +kernel
        exact isExported_of_isUpper (by decide) (forall_mem_cons.2 ⟨hunderscore, hrest⟩)

/-- The constant of an identifier has a proper name. -/
theorem isExported_patternConstant (h : isIdentifier name = true) : IsExported (patternConstant name) :=
  isExported_append (isExported_identifier h) (by decide +kernel)

/-! ### The table of names -/

/-- The names that a definition generates. -/
def generated (d : NamedPattern) : List Text := [identifier d.name, patternConstant d.name]

/-- The names that the definitions generate. -/
def generatedNames (ds : List NamedPattern) : List Text := ds.flatMap generated

/-- The table of the names that the definitions generate. -/
def ownersOf (ds : List NamedPattern) : Owners :=
  (ds.flatMap fun d => (generated d).map (·, d.name)).reverse

theorem ownersOf_concat (ds : List NamedPattern) (d : NamedPattern) : ownersOf (ds ++ [d]) =
      (patternConstant d.name, d.name) :: (identifier d.name, d.name) :: ownersOf ds := by
  simp [ownersOf, generated]

/-- An identifier is owned by the definition that it is generated for. -/
theorem mem_ownersOf : (id, first) ∈ ownersOf ds ↔ ∃ d ∈ ds, id ∈ generated d ∧ d.name = first := by
  simp only [ownersOf, mem_reverse, mem_flatMap, mem_map, Prod.mk.injEq]
  refine exists_congr fun d => and_congr_right fun _ => ?_
  exact ⟨fun ⟨_, hid, rfl, hname⟩ => ⟨hid, hname⟩, fun ⟨hid, hname⟩ => ⟨id, hid, rfl, hname⟩⟩

theorem lookup_ownersOf_eq_none : (ownersOf ds).lookup id = none ↔ id ∉ generatedNames ds := by
  simp only [lookup_eq_none_iff, bne_iff_ne, generatedNames, mem_flatMap, not_exists, not_and]
  constructor
  · intro h d hd hid
    exact h (id, d.name) (mem_ownersOf.2 ⟨d, hd, hid, rfl⟩) rfl
  · rintro h ⟨id', first⟩ hmem rfl
    obtain ⟨d, hd, hid, -⟩ := mem_ownersOf.1 hmem
    exact h d hd hid

theorem exists_of_lookup_ownersOf (h : (ownersOf ds).lookup id = some first) :
    ∃ d ∈ ds, id ∈ generated d ∧ d.name = first := by
  obtain ⟨before, after, heq, -⟩ := lookup_eq_some_iff.1 h
  exact mem_ownersOf.1 (heq ▸ mem_append_right _ mem_cons_self)

section

variable {owners owners' : Owners} {name id : Text} {why : EntryError}

/-- An identifier without an owner gets one. -/
theorem assign_eq_ok :
    owners.assign name id = .ok owners' ↔ owners.lookup id = none ∧ owners' = (id, name) :: owners := by
  unfold Owners.assign
  cases owners.lookup id with
  | none => exact ⟨fun h => ⟨rfl, (Except.ok.inj h).symm⟩, fun h => congrArg Except.ok h.2.symm⟩
  | some => exact ⟨nofun, nofun⟩

theorem assign_eq_error : owners.assign name id = .error why ↔
      ∃ first, owners.lookup id = some first ∧ why = .clash first name id := by
  unfold Owners.assign
  cases owners.lookup id with
  | none => exact ⟨nofun, nofun⟩
  | some first =>
    refine ⟨fun h => ⟨first, rfl, (Except.error.inj h).symm⟩, ?_⟩
    rintro ⟨_, h, rfl⟩
    rw [Option.some.inj h]

/-- The table does not give the constant of a definition away with its variable. -/
theorem lookup_patternConstant (name : Text) (owners : Owners) :
    List.lookup (patternConstant name) ((identifier name, name) :: owners) = owners.lookup (patternConstant name) := by
  have hne : (patternConstant name == identifier name) = false :=
    beq_eq_false_iff_ne.2 (patternConstant_ne_identifier name)
  rw [lookup_cons, hne]

end

/-! ### One definition, and all of them -/

section

variable {accepts : Acceptance} {engine : Text} {g : Graph} {done ds : List NamedPattern}
  {d : NamedPattern} {e : Entry} {es : List Entry} {owners : Owners} {why : EntryError}

/-- The definition has the text that the entry holds, and the engine of the name takes it. -/
def IsEntryOf (accepts : Acceptance) (engine : Text) (g : Graph) (d : NamedPattern) (e : Entry) : Prop :=
  ∃ x, g.render (some d.node) = .ok x ∧ accepts.check engine x = .ok () ∧ e = Entry.of d.name x.text

/-- **A definition gets its entry exactly if its text is taken and its names are new.** -/
theorem entry_eq_ok : entry accepts engine g (ownersOf done) d = .ok (e, owners) ↔
    IsEntryOf accepts engine g d e ∧ (∀ id ∈ generated d, id ∉ generatedNames done) ∧
      owners = ownersOf (done ++ [d]) := by
  have hnew : (∀ id ∈ generated d, id ∉ generatedNames done) ↔
      (ownersOf done).lookup (identifier d.name) = none ∧
        (ownersOf done).lookup (patternConstant d.name) = none := by
    rw [lookup_ownersOf_eq_none, lookup_ownersOf_eq_none, generated, forall_mem_cons, forall_mem_singleton]
  rw [hnew, ownersOf_concat]
  simp only [entry, bind_eq_ok, assign_eq_ok, Entry.of]
  constructor
  · rintro ⟨x, hx, _, ⟨hident, rfl⟩, _, ⟨hconstant, rfl⟩, _, hcheck, h⟩
    cases h
    rw [lookup_patternConstant] at hconstant
    exact ⟨⟨x, mapError_eq_ok.1 hx, mapError_eq_ok.1 hcheck, rfl⟩, ⟨hident, hconstant⟩, rfl⟩
  · rintro ⟨⟨x, hx, hcheck, rfl⟩, ⟨hident, hconstant⟩, rfl⟩
    exact ⟨x, mapError_eq_ok.2 hx, _, ⟨hident, rfl⟩, _,
      ⟨(lookup_patternConstant _ _).trans hconstant, rfl⟩, (), mapError_eq_ok.2 hcheck, rfl⟩

/-- **A definition whose text is taken fails only by a clash,** which names a definition before it. -/
theorem entry_eq_clash (hd : IsEntryOf accepts engine g d e)
    (h : entry accepts engine g (ownersOf done) d = .error why) :
    ∃ d' ∈ done, ∃ id, id ∈ generated d' ∧ id ∈ generated d ∧ why = .clash d'.name d.name id := by
  obtain ⟨x, hx, hcheck, rfl⟩ := hd
  have hclash : ∀ {id first}, (ownersOf done).lookup id = some first → id ∈ generated d →
      ∃ d' ∈ done, ∃ id', id' ∈ generated d' ∧ id' ∈ generated d ∧
        EntryError.clash first d.name id = .clash d'.name d.name id' := by
    intro id first hfirst hid
    obtain ⟨d', hd', hid', rfl⟩ := exists_of_lookup_ownersOf hfirst
    exact ⟨d', hd', id, hid', hid, rfl⟩
  rcases bind_eq_error.1 h with h | ⟨y, hy, h⟩
  · obtain ⟨f, hf, -⟩ := mapError_eq_error.1 h
    cases hx.symm.trans hf
  cases hx.symm.trans (mapError_eq_ok.1 hy)
  rcases bind_eq_error.1 h with h | ⟨_, hident, h⟩
  · obtain ⟨first, hfirst, rfl⟩ := assign_eq_error.1 h
    exact hclash hfirst mem_cons_self
  obtain ⟨-, rfl⟩ := assign_eq_ok.1 hident
  rcases bind_eq_error.1 h with h | ⟨_, -, h⟩
  · obtain ⟨first, hfirst, rfl⟩ := assign_eq_error.1 h
    exact hclash ((lookup_patternConstant _ _).symm.trans hfirst) (mem_cons_of_mem _ mem_cons_self)
  rcases bind_eq_error.1 h with h | ⟨_, -, h⟩
  · obtain ⟨f, hf, -⟩ := mapError_eq_error.1 h
    cases hcheck.symm.trans hf
  · cases h

/-- **The definitions get their entries exactly if their texts are taken and all names are distinct,**
also from those of the definitions before them. -/
theorem entries_eq_ok (hdone : (generatedNames done).Nodup) : entries accepts engine g (ownersOf done) ds = .ok es ↔
      Forall₂ (IsEntryOf accepts engine g) ds es ∧ (generatedNames (done ++ ds)).Nodup := by
  induction ds generalizing done es with
  | nil => simp [entries, hdone, eq_comm]
  | cons d rest ih =>
    have hsplit : done ++ d :: rest = (done ++ [d]) ++ rest := by simp
    have hstep : (generatedNames (done ++ [d])).Nodup ↔ ∀ id ∈ generated d, id ∉ generatedNames done := by
      have hself : (generated d).Nodup := by
        simpa [generated, eq_comm] using patternConstant_ne_identifier d.name
      simp only [generatedNames, flatMap_append, flatMap_cons, flatMap_nil, List.append_nil]
      rw [nodup_append']
      exact ⟨fun h id hid hdone => h.2.2 hdone hid, fun h => ⟨hdone, hself, fun id hdone hid => h id hid hdone⟩⟩
    simp only [entries, bind_eq_ok, Prod.exists, entry_eq_ok]
    constructor
    · rintro ⟨e, owners, ⟨he, hnew, rfl⟩, es, hes, h⟩
      cases h
      obtain ⟨hrest, hnodup⟩ := (ih (hstep.2 hnew)).1 hes
      exact ⟨.cons he hrest, hsplit ▸ hnodup⟩
    · rintro ⟨hall, hnodup⟩
      rw [hsplit] at hnodup
      obtain ⟨e, es, he, hrest, rfl⟩ := forall₂_cons_left_iff.1 hall
      have hfirst : (generatedNames (done ++ [d])).Nodup := by
        rw [generatedNames, flatMap_append] at hnodup
        exact hnodup.of_append_left
      exact ⟨e, _, ⟨he, hstep.1 hfirst, rfl⟩, es, (ih hfirst).2 ⟨hrest, hnodup⟩, rfl⟩

/-- **Definitions whose texts are taken fail only by a clash,** which names two of them. -/
theorem entries_eq_clash (hds : ∀ d ∈ ds, ∃ e, IsEntryOf accepts engine g d e)
    (h : entries accepts engine g (ownersOf done) ds = .error why) :
    ∃ d₁ d₂ id, List.Sublist [d₁, d₂] (done ++ ds) ∧ id ∈ generated d₁ ∧ id ∈ generated d₂ ∧
      why = .clash d₁.name d₂.name id := by
  induction ds generalizing done with
  | nil => cases h
  | cons d rest ih =>
    obtain ⟨⟨e, he⟩, hrest⟩ := forall_mem_cons.1 hds
    rcases bind_eq_error.1 h with h | ⟨⟨e, owners⟩, hentry, h⟩
    · obtain ⟨d', hd', id, hid', hid, rfl⟩ := entry_eq_clash he h
      refine ⟨d', d, id, ?_, hid', hid, rfl⟩
      exact (singleton_sublist.2 hd').append (singleton_sublist.2 mem_cons_self)
    · obtain ⟨-, -, rfl⟩ := entry_eq_ok.1 hentry
      rcases bind_eq_error.1 h with h | ⟨es, -, h⟩
      · obtain ⟨d₁, d₂, id, hsub, hid₁, hid₂, rfl⟩ := ih hrest h
        exact ⟨d₁, d₂, id, by simpa using hsub, hid₁, hid₂, rfl⟩
      · cases h

/-- Two definitions that generate the same name. -/
theorem not_nodup_generatedNames {d₁ d₂ : NamedPattern} {id : Text} (hsub : List.Sublist [d₁, d₂] ds)
    (h₁ : id ∈ generated d₁) (h₂ : id ∈ generated d₂) : ¬(generatedNames ds).Nodup := by
  intro hnodup
  have hpair := (nodup_flatMap.1 hnodup).2.sublist hsub
  exact rel_of_pairwise_cons hpair mem_cons_self h₁ h₂

end

namespace Generator

/-- **Name clashes are detected exactly.** Let the names of all definitions be identifiers, and let all
of them have texts that the engine takes. Whatever was asked of the generator before, and whatever
became of the files, rendering succeeds exactly if the names of the variables and constants are pairwise
distinct. Then each of them is a proper exported name; otherwise the answer names two definitions of
the list, the first before the second, that generate the reported name. -/
theorem clashes_detected {σ : Type} (c : Config) (accepts : Acceptance) (files : Files (StateM σ))
    (s : σ) (calls : List Call)
    (hnames : ∀ d ∈ c.library.patterns, isIdentifier d.name = true)
    (htexts : ∀ d ∈ c.library.patterns, ∃ x, c.library.graph.render (some d.node) = .ok x ∧
      accepts.check (engineName c) x = .ok ()) :
    let answer := ((((Generator.new c).after accepts files calls).run s).1.render accepts).1
    ((∃ ts, answer = .ok ts) ↔ (generatedNames c.library.patterns).Nodup) ∧
      (∀ id ∈ generatedNames c.library.patterns, IsExported id) ∧
      (¬(generatedNames c.library.patterns).Nodup →
        ∃ d₁ d₂ id, List.Sublist [d₁, d₂] c.library.patterns ∧ id ∈ generated d₁ ∧ id ∈ generated d₂ ∧
          answer = .error (.clash d₁.name d₂.name id)) := by
  intro answer
  have hanswer : answer = (Generate.entries accepts (engineName c) c.library.graph (ownersOf [])
      c.library.patterns).map (·.map Entry.source) := by
    show (Generator.entries _ accepts).map _ = _
    rw [Generator.entries, config_after]
    rfl
  have hentries : ∀ d ∈ c.library.patterns, ∃ e, IsEntryOf accepts (engineName c) c.library.graph d e := by
    intro d hd
    obtain ⟨x, hx, hcheck⟩ := htexts d hd
    exact ⟨_, x, hx, hcheck, rfl⟩
  have hexported : ∀ id ∈ generatedNames c.library.patterns, IsExported id := by
    intro id hid
    obtain ⟨d, hd, hid⟩ := mem_flatMap.1 hid
    rcases mem_pair.1 hid with rfl | rfl
    · exact isExported_identifier (hnames d hd)
    · exact isExported_patternConstant (hnames d hd)
  rw [hanswer]
  cases h : Generate.entries accepts (engineName c) c.library.graph (ownersOf [])
      c.library.patterns with
  | ok es =>
    have hempty : (generatedNames []).Nodup := nodup_nil
    have hnodup := ((entries_eq_ok hempty).1 h).2
    exact ⟨⟨fun _ => hnodup, fun _ => ⟨_, rfl⟩⟩, hexported, fun hclash => absurd hnodup hclash⟩
  | error why =>
    obtain ⟨d₁, d₂, id, hsub, hid₁, hid₂, rfl⟩ := entries_eq_clash hentries h
    have hclash := not_nodup_generatedNames hsub hid₁ hid₂
    exact ⟨⟨fun ⟨_, hts⟩ => (nomatch hts), fun hnodup => absurd hnodup hclash⟩, hexported,
      fun _ => ⟨d₁, d₂, id, hsub, hid₁, hid₂, rfl⟩⟩

/-- Two definitions of which the first generates a constant and the second a variable of one name. -/
def clashingPair : Config where
  library := ⟨⟨#[.leaf (.literal "a")]⟩, [⟨"A", ⟨[], 1, 1⟩, 0⟩, ⟨"APattern", ⟨[], 2, 1⟩, 0⟩]⟩
  source := []
  output := "a.go"
  package := "p"
  engine := []
  withTests := false
  verbose := false

theorem clashes_detected_clashingPair :
    (∀ d ∈ clashingPair.library.patterns, isIdentifier d.name = true) ∧
    (∀ d ∈ clashingPair.library.patterns, ∃ x,
      clashingPair.library.graph.render (some d.node) = .ok x ∧
        Acceptance.check Engine.accepts (engineName clashingPair) x = .ok ()) ∧
    ¬(generatedNames clashingPair.library.patterns).Nodup ∧
    ∃ d₁ d₂ id, List.Sublist [d₁, d₂] clashingPair.library.patterns ∧ id ∈ generated d₁ ∧
      id ∈ generated d₂ ∧
      ((((Generator.new clashingPair).after Engine.accepts FileTree.access [.generate, .render]).run
        ⟨[], []⟩).1.render Engine.accepts).1 = .error (.clash d₁.name d₂.name id) := by
  have hnames : ∀ d ∈ clashingPair.library.patterns, isIdentifier d.name = true := by decide +kernel
  have htext : clashingPair.library.graph.render (some 0) = .ok ⟨"a", false⟩ := by decide +kernel
  have hcheck : Acceptance.check Engine.accepts (engineName clashingPair) ⟨"a", false⟩ = .ok () := by
    decide +kernel
  have htexts : ∀ d ∈ clashingPair.library.patterns, ∃ x,
      clashingPair.library.graph.render (some d.node) = .ok x ∧
        Acceptance.check Engine.accepts (engineName clashingPair) x = .ok () :=
    forall_mem_cons.2 ⟨⟨_, htext, hcheck⟩, forall_mem_singleton.2 ⟨_, htext, hcheck⟩⟩
  have hclash : ¬(generatedNames clashingPair.library.patterns).Nodup := by decide +kernel
  exact ⟨hnames, htexts, hclash,
    (clashes_detected clashingPair Engine.accepts FileTree.access ⟨[], []⟩ [.generate, .render]
      hnames htexts).2.2 hclash⟩

end Generator
end RegexBuilder.Generate
