/-
# Selections of a library

Choosing definitions by name leaves the named definitions in the order of the library, each of them once
(`Library.IsRestriction`). The definitions get their texts exactly if each has one that the engine takes and no name
is generated twice (`Generator.render_eq_ok`). Both are true of a sublist if they are true of all, and the selection
shares the graph of the library (`Library.select_restricts`).
-/

import RegexBuilder.Proofs.NameClash
import Mathlib.Data.List.Flatten

namespace RegexBuilder

open List

/-! ### The chosen definitions -/

namespace Description
namespace Library

variable {lib selected : Library} {wanted : List Text}

/-- The names of the definitions. -/
def names (lib : Library) : List Text := lib.patterns.map (·.name)

/-- The first of the wanted names that is not defined. -/
def IsFirstUnknown (lib : Library) (wanted : List Text) (name : Text) : Prop :=
  name ∉ lib.names ∧ ∃ before after, wanted = before ++ name :: after ∧ ∀ n ∈ before, n ∈ lib.names

/-- The library with the definitions of the wanted names only. -/
structure IsRestriction (lib : Library) (wanted : List Text) (selected : Library) : Prop where
  graph_eq : selected.graph = lib.graph
  sublist : selected.patterns.Sublist lib.patterns
  mem_iff : ∀ d, d ∈ selected.patterns ↔ d ∈ lib.patterns ∧ d.name ∈ wanted
  nodup : selected.names.Nodup

/-- What stays wanted are the wanted names that no pattern has. -/
theorem mem_snd_pick {ps : List NamedPattern} {name : Text} :
    name ∈ (pick wanted ps).2 ↔ name ∈ wanted ∧ name ∉ ps.map (·.name) := by
  fun_induction pick wanted ps with
  | case1 => simp
  | case2 wanted p rest _ picked left hpick ih =>
    rw [hpick] at ih
    rw [ih, mem_filter, map_cons, mem_cons, not_or, decide_eq_true_eq, and_assoc]
  | case3 wanted p rest hp ih =>
    rw [ih, map_cons, mem_cons, not_or]
    -- the name of the pattern is not wanted at all
    refine and_congr_right fun hname => (and_iff_right ?_).symm
    rintro rfl
    exact hp hname

/-- **Where no name is defined twice, the patterns of the wanted names are taken.** Of several patterns with one
name only the first would be. -/
theorem fst_pick {ps : List NamedPattern} (hnodup : (ps.map (·.name)).Nodup) :
    (pick wanted ps).1 = ps.filter fun p => p.name ∈ wanted := by
  fun_induction pick wanted ps with
  | case1 => rfl
  | case2 wanted p rest hp picked left hpick ih =>
    obtain ⟨hp', hrest⟩ := nodup_cons.1 hnodup
    rw [hpick] at ih
    have hpicked : picked = _ := ih hrest
    simp only [filter_cons, hp, decide_true, if_true, hpicked]
    -- no other pattern has the name that is dropped
    refine congrArg (p :: ·) (filter_congr fun q hq => ?_)
    have hne : q.name ≠ p.name := fun h => hp' (mem_map.2 ⟨q, hq, h⟩)
    simp [mem_filter, hne]
  | case3 wanted p rest hp ih =>
    rw [filter_cons_of_neg (by simpa using hp), ih (nodup_cons.1 hnodup).2]

/-- What is picked stands in the order of the patterns. -/
theorem fst_pick_sublist {ps : List NamedPattern} : (pick wanted ps).1.Sublist ps := by
  fun_induction pick wanted ps with
  | case1 => exact .slnil
  | case2 wanted p rest _ picked left hpick ih =>
    rw [hpick] at ih
    exact ih.cons_cons p
  | case3 wanted p rest _ ih => exact ih.cons p

/-- The first name that stays wanted is the first one that is not defined. -/
theorem find?_eq_some {name : Text} :
    wanted.find? (· ∈ (pick wanted lib.patterns).2) = some name ↔ lib.IsFirstUnknown wanted name := by
  simp only [find?_eq_some_iff_append, decide_eq_true_eq, mem_snd_pick, Bool.not_eq_true', decide_eq_false_iff_not,
    IsFirstUnknown, names]
  constructor
  · rintro ⟨⟨-, hname⟩, before, after, hwanted, hbefore⟩
    refine ⟨hname, before, after, hwanted, fun n hn => by_contra fun hnot => hbefore n hn ⟨?_, hnot⟩⟩
    rw [hwanted]
    exact mem_append_left _ hn
  · rintro ⟨hname, before, after, rfl, hbefore⟩
    exact ⟨⟨by simp, hname⟩, before, after, rfl, fun n hn h => h.2 (hbefore n hn)⟩

/-- No name stays wanted exactly if all are defined. -/
theorem find?_eq_none :
    wanted.find? (· ∈ (pick wanted lib.patterns).2) = none ↔ ∀ n ∈ wanted, n ∈ lib.names := by
  simp only [List.find?_eq_none, decide_eq_true_eq, mem_snd_pick, names, not_and, not_not]
  exact ⟨fun h n hn => h n hn hn, fun h n hn _ => h n hn⟩

/-- **Choosing fails at the first name that is not defined.** -/
theorem select_eq_error {u : UnknownName} :
    lib.select wanted = .error u ↔ lib.IsFirstUnknown wanted u.name := by
  rw [← find?_eq_some]
  unfold select
  cases wanted with
  | nil => simp
  | cons =>
    rw [if_neg (by simp)]
    dsimp only
    split
    · next h =>
      obtain ⟨name⟩ := u
      simp [h]
    · next h => simp [h]

/-- **Choosing succeeds if all names are defined,** and leaves what was picked. -/
theorem select_eq_ok : lib.select wanted = .ok selected ↔ (∀ n ∈ wanted, n ∈ lib.names) ∧
    selected = if wanted = [] then lib else { lib with patterns := (pick wanted lib.patterns).1 } := by
  rw [← find?_eq_none]
  unfold select
  cases wanted with
  | nil => simpa using eq_comm
  | cons =>
    rw [if_neg (by simp), if_neg (cons_ne_nil _ _)]
    dsimp only
    split
    · next h => simp [h]
    · next h => simp [h, eq_comm]

/-- **The loop keeps the patterns of the wanted names,** where no name is defined twice. -/
theorem select_eq_ok_iff_filter (hnodup : lib.names.Nodup) :
    lib.select wanted = .ok selected ↔ (∀ n ∈ wanted, n ∈ lib.names) ∧
      selected = { lib with patterns := lib.patterns.filter fun d => wanted = [] ∨ d.name ∈ wanted } := by
  rw [select_eq_ok, fst_pick hnodup]
  by_cases hwanted : wanted = []
  · simp [hwanted]
  · simp [hwanted]

theorem isRestriction_of_select (hnodup : lib.names.Nodup) (hne : wanted ≠ [])
    (h : lib.select wanted = .ok selected) : lib.IsRestriction wanted selected := by
  obtain ⟨-, rfl⟩ := (select_eq_ok_iff_filter hnodup).1 h
  exact {
    graph_eq := rfl
    sublist := filter_sublist
    mem_iff := fun d => by simp [mem_filter, hne]
    nodup := hnodup.sublist (filter_sublist.map _) }

/-- **Neither the order of the names nor their repetition matters.** -/
theorem select_congr (hnodup : lib.names.Nodup) {wanted' : List Text} (hsame : ∀ n, n ∈ wanted' ↔ n ∈ wanted) :
    lib.select wanted = .ok selected → lib.select wanted' = .ok selected := by
  have hnil : wanted' = [] ↔ wanted = [] := by
    simp only [eq_nil_iff_forall_not_mem, hsame]
  simp only [select_eq_ok_iff_filter hnodup, hsame, hnil]
  exact id

end Library
end Description

/-! ### The texts of the chosen definitions -/

namespace Generate

open Description (NamedPattern Library)

variable {c : Config} {accepts : Acceptance} {ts : List Text}

/-- **Rendering succeeds exactly if each definition has an entry and no name is generated twice.** -/
theorem Generator.render_eq_ok : ((Generator.new c).render accepts).1 = .ok ts ↔
      ∃ es, Forall₂ (IsEntryOf accepts (engineName c) c.library.graph) c.library.patterns es ∧
        (generatedNames c.library.patterns).Nodup ∧ es.map Entry.source = ts := by
  have hempty : (generatedNames []).Nodup := nodup_nil
  have hentries : ∀ es, (Generator.new c).entries accepts = .ok es ↔
      Forall₂ (IsEntryOf accepts (engineName c) c.library.graph) c.library.patterns es ∧
        (generatedNames c.library.patterns).Nodup :=
    fun es => entries_eq_ok hempty
  show ((Generator.new c).entries accepts).map _ = _ ↔ _
  simp only [← and_assoc, ← hentries]
  cases (Generator.new c).entries accepts <;> simp [Except.map]

/-- **A definition keeps its text if others are left out.** -/
theorem Generator.render_filter (h : ((Generator.new c).render accepts).1 = .ok ts) (p : NamedPattern → Bool) :
    ∃ ts', ((Generator.new { c with library := ⟨c.library.graph, c.library.patterns.filter p⟩ }).render accepts).1 =
        .ok ts' ∧ (c.library.patterns.filter p).length = ts'.length ∧
      (c.library.patterns.filter p).zip ts' = (c.library.patterns.zip ts).filter (p ·.1) := by
  obtain ⟨es, hes, hnodup, rfl⟩ := render_eq_ok.1 h
  obtain ⟨es', hes', hzip⟩ := forall₂_filter hes p
  have hnodup' : (generatedNames (c.library.patterns.filter p)).Nodup :=
    hnodup.sublist (filter_sublist.flatMap _)
  refine ⟨es'.map Entry.source, render_eq_ok.2 ⟨es', hes', hnodup', rfl⟩, ?_, ?_⟩
  · rw [length_map, hes'.length_eq]
  · rw [zip_map_right, hzip, zip_map_right, filter_map]
    rfl

end Generate

open Description (Library)
open Generate (Config Generator)

/-- **Selecting definitions restricts the output and nothing else.** Let the names of the definitions be distinct.
Choosing fails exactly if some name is not defined, at the first such name. Otherwise the selection has exactly
the definitions of the wanted names, in their order and each of them once; without names it is all of the
library. The order and the repetition of the names do not matter. If all definitions of the library render,
then so do those of the selection, and each of them gets the text that it gets among all. -/
theorem Description.Library.select_restricts (lib : Library) (wanted : List Text) (hnodup : lib.names.Nodup) :
    ((∃ selected, lib.select wanted = .ok selected) ↔ ∀ n ∈ wanted, n ∈ lib.names) ∧
    (∀ u, lib.select wanted = .error u ↔ lib.IsFirstUnknown wanted u.name) ∧
    ∀ selected, lib.select wanted = .ok selected →
      (wanted = [] → selected = lib) ∧ (wanted ≠ [] → lib.IsRestriction wanted selected) ∧
      (∀ wanted', (∀ n, n ∈ wanted' ↔ n ∈ wanted) → lib.select wanted' = .ok selected) ∧
      ∀ (c : Config) (accepts : Acceptance) (ts : List Text), c.library = lib →
        ((Generator.new c).render accepts).1 = .ok ts →
        ∃ ts', ((Generator.new { c with library := selected }).render accepts).1 = .ok ts' ∧
          selected.patterns.length = ts'.length ∧ selected.patterns.zip ts' =
            (lib.patterns.zip ts).filter fun p => wanted = [] ∨ p.1.name ∈ wanted := by
  refine ⟨?_, fun u => Library.select_eq_error, fun selected h => ⟨?_, ?_, ?_, ?_⟩⟩
  · simp only [Library.select_eq_ok, exists_and_left, exists_eq, and_true]
  · rintro rfl
    cases h
    rfl
  · exact fun hne => Library.isRestriction_of_select hnodup hne h
  · exact fun wanted' hsame => Library.select_congr hnodup hsame h
  · rintro c accepts ts rfl hrender
    obtain ⟨-, rfl⟩ := (Library.select_eq_ok_iff_filter hnodup).1 h
    exact Generator.render_filter hrender _

/-- Three definitions, of which the last refers to the others. -/
def threeDefinitions : Config where
  library := ⟨⟨#[.leaf (.literal "a"), .leaf (.literal "b"), .concat [some 0, some 1]]⟩,
    [⟨"A", ⟨[], 1, 1⟩, 0⟩, ⟨"B", ⟨[], 2, 1⟩, 1⟩, ⟨"C", ⟨[], 3, 1⟩, 2⟩]⟩
  source := []
  output := "a.go"
  package := "p"
  engine := []
  withTests := false
  verbose := false

theorem Description.Library.select_restricts_threeDefinitions :
    threeDefinitions.library.names.Nodup ∧
    ∃ selected ts', threeDefinitions.library.select ["C", "A", "C"] = .ok selected ∧
      threeDefinitions.library.IsRestriction ["C", "A", "C"] selected ∧
      ((Generator.new { threeDefinitions with library := selected }).render Engine.accepts).1 = .ok ts' ∧
      selected.patterns.zip ts' =
        (threeDefinitions.library.patterns.zip (["a", "b", "ab"] : List Text)).filter fun p =>
          (["C", "A", "C"] : List Text) = [] ∨ p.1.name ∈ (["C", "A", "C"] : List Text) := by
  have hnodup : threeDefinitions.library.names.Nodup := by decide +kernel
  have hrender : ((Generator.new threeDefinitions).render Engine.accepts).1.toOption =
      some (["a", "b", "ab"] : List Text) := by
    decide +kernel
  obtain ⟨hok, -, hselected⟩ := select_restricts threeDefinitions.library ["C", "A", "C"] hnodup
  obtain ⟨selected, h⟩ := hok.2 (by decide +kernel)
  obtain ⟨-, hrestricts, -, htexts⟩ := hselected selected h
  obtain ⟨ts', hts', -, hzip⟩ := htexts threeDefinitions Engine.accepts _ rfl (toOption_eq_some.1 hrender)
  exact ⟨hnodup, selected, ts', h, hrestricts (by decide), hts', hzip⟩

end RegexBuilder
