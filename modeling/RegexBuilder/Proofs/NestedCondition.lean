/-
# Reading conditions that are patterns

The condition of a conditional may be a pattern, with parentheses of its own: `(?(a(b|c))d|e)`. Then the first closing
parenthesis does not end it, so a conditional is read as a group that begins with another group: what opens the
conditional opens its condition with it (`Lexeme.levels`). Where conditions are `nested`, they are read so.
-/

import RegexBuilder.Proofs.Grouping

namespace RegexBuilder

open List

/-- Reads the first lexeme of a text. What opens a conditional is a lexeme, whatever its condition. -/
def nestedLexeme? : Text → Option (Lexeme × Text)
  | .char '(' :: .char '?' :: .char '(' :: rest => some (.opening "(?(", rest)
  | t => lexeme? t

/-- The openings that the lexeme stands for: a conditional is a group that begins with its condition,
which is a group too. -/
def Lexeme.levels : Lexeme → List Lexeme
  | opening t => if t = "(?(" then [opening "(?", opening "("] else [opening t]
  | l => [l]

/-- The branches of a text in which conditions are patterns, if all of it can be read. -/
def readNested? (t : Text) : Option (List (List Item)) :=
  (cutAfter nestedLexeme? 0 t).bind fun ls => branches? (ls.flatMap Lexeme.levels)

/-- Reads the first lexeme of a text, in which conditions may be nested. -/
def readLexeme? : (nested : Bool) → Text → Option (Lexeme × Text)
  | true => nestedLexeme?
  | false => lexeme?

/-- The openings that lexemes stand for where conditions may be nested. -/
def readLevels : (nested : Bool) → List Lexeme → List Lexeme
  | true, ls => ls.flatMap Lexeme.levels
  | false, ls => ls

/-! ### Lexemes among conditionals -/

variable {nested : Bool}

namespace Lexeme

variable {l : Lexeme}

/-- The lexeme is read as it is written where nothing runs into it, and its form shows what it is. -/
structure IsFit (nested : Bool) (l : Lexeme) : Prop where
  read : ∀ {rest}, l.Apart rest → readLexeme? nested (l.form ++ rest) = some (l, rest)
  isWhole : l.IsWhole

theorem IsFit.isLegible (h : l.IsFit false) : l.IsLegible := ⟨h.read, h.isWhole.complete, h.isWhole.digit⟩

/-- Only what begins as a conditional is read otherwise where conditions are nested. -/
theorem IsLegible.isFit (h : l.IsLegible) (htest : nested = true → ∀ t, l ≠ test t) : l.IsFit nested := by
  refine ⟨fun {rest} hrest => ?_, h.isWhole⟩
  have hread := h.read hrest
  cases nested with
  | false => exact hread
  | true =>
    show nestedLexeme? (l.form ++ rest) = _
    unfold nestedLexeme?
    split
    · next rest' hform =>
      rw [hform] at hread
      have htest' : until? (.char ')') test rest' = some (l, rest) := hread
      unfold until? at htest'
      split at htest'
      · cases htest'
        exact absurd rfl (htest rfl _)
      · cases htest'
    · exact hread

/-- What opens a conditional can be read alone. -/
theorem isFit_conditional : (opening "(?(").IsFit true where
  read _ := rfl
  isWhole := by
    obtain ⟨hcomplete, hend⟩ := complete_of_ending (t := "(?(") (v := "(?") rfl rfl (by decide)
    refine ⟨cons_ne_nil _ _, fun h hc => ?_, fun h => ?_, hcomplete, fun h hd => ?_⟩
    · cases (List.cons.inj h).1
      cases hc
    · cases (List.cons.inj h).1
    · rw [hend h] at hd
      cases hd

/-- A legible lexeme opens at most one group. -/
theorem IsLegible.levels_eq (h : l.IsLegible) : l.levels = [l] := by
  cases l with
  | opening =>
    refine if_neg ?_
    rintro rfl
    cases h.read (apart_nil _)
  | atom | test | bar | close | times => rfl

theorem levels_ne_nil (l : Lexeme) : l.levels ≠ [] := by
  cases l with
  | opening =>
    rw [levels]
    split <;> exact cons_ne_nil _ _
  | atom | test | bar | close | times => exact cons_ne_nil _ _

/-- Behind the last opening of a lexeme a suffix may stand exactly if it may behind the lexeme. -/
theorem takesSuffix_of_mem_levels {m : Lexeme} (h : m ∈ l.levels.getLast?) : m.takesSuffix = l.takesSuffix := by
  cases l with
  | opening =>
    rw [levels] at h
    split at h
    all_goals
      cases h
      rfl
  | atom | test | bar | close | times =>
    cases h
    rfl

variable {next : Lexeme}

/-- Parentheses and bars do not run into anything. -/
theorem Precedes.of_next (hchar : ∀ c, next ≠ atom (.char c)) (htimes : ∀ b, next ≠ times b) : l.Precedes next :=
  ⟨fun _ _ h => absurd h (hchar _), fun h => absurd h (htimes _)⟩

/-- Only an escape of one digit is run into by anything but a suffix. -/
theorem Precedes.of_ne_times (hl : ∀ d, l ≠ atom (.escape [d])) (hnext : ∀ b, next ≠ times b) : l.Precedes next :=
  ⟨fun h => absurd h (hl _), fun h => absurd h (hnext _)⟩

/-- Behind a lexeme that takes a suffix and is no escape of one digit anything may stand. -/
theorem Precedes.of_takesSuffix (hl : ∀ d, l ≠ atom (.escape [d])) (h : l.takesSuffix = true) : l.Precedes next :=
  ⟨fun h => absurd h (hl _), fun _ => h⟩

end Lexeme

theorem isLegible_close : Lexeme.close.IsLegible := .of_ending (v := []) rfl rfl (by decide) fun _ => rfl

theorem isLegible_bar : Lexeme.bar.IsLegible := .of_ending (v := []) rfl rfl (by decide) fun _ => rfl

theorem isLegible_plain : (Lexeme.opening "(?:").IsLegible := .of_ending (v := "(?") rfl rfl (by decide) fun _ => rfl

/-! ### Spelling and reading -/

/-- Every lexeme can be read and none runs into the next. -/
structure IsSpelling (nested : Bool) (ls : List Lexeme) : Prop where
  fit : ∀ l ∈ ls, l.IsFit nested
  apart : ls.IsChain Lexeme.Precedes

namespace IsSpelling

variable {ls ms : List Lexeme}

theorem nil : IsSpelling nested [] := ⟨nofun, .nil⟩

theorem singleton {l : Lexeme} (h : l.IsFit nested) : IsSpelling nested [l] :=
  ⟨fun _ hm => mem_singleton.1 hm ▸ h, .singleton l⟩

/-- Lexemes that keep apart are spelled one after the other. -/
theorem append (h : IsSpelling nested ls) (h' : IsSpelling nested ms)
    (hjoin : ∀ l ∈ ls.getLast?, ∀ m ∈ ms.head?, l.Precedes m) : IsSpelling nested (ls ++ ms) := by
  refine ⟨fun l hl => ?_, h.apart.append h'.apart hjoin⟩
  rcases mem_append.1 hl with hl | hl
  · exact h.fit l hl
  · exact h'.fit l hl

theorem of_append (h : IsSpelling nested (ls ++ ms)) : IsSpelling nested ls :=
  ⟨fun l hl => h.fit l (mem_append_left _ hl), h.apart.left_of_append⟩

/-- What is spelled is complete. -/
theorem isComplete (h : IsSpelling nested ls) : (spell ls).IsComplete :=
  Text.isComplete_flatMap fun l hl => (h.fit l hl).isWhole.complete

theorem close (h : IsSpelling nested ls) : IsSpelling nested (ls ++ [Lexeme.close]) := by
  refine h.append (singleton (isLegible_close.isFit nofun)) fun l _ m hm => ?_
  cases hm
  exact .of_next nofun nofun

/-- What is spelled is read as these lexemes. -/
theorem cutAfter_eq (h : IsSpelling nested ls) : cutAfter (readLexeme? nested) 0 (spell ls) = some ls :=
  cutAfter_spell (fun l hl _ => (h.fit l hl).read) (fun l hl => (h.fit l hl).isWhole) h.apart

theorem lexemes?_eq (h : IsSpelling false ls) : lexemes? (spell ls) = some ls := h.cutAfter_eq

end IsSpelling

/-- Openings are read one by one. -/
theorem readLevels_append (nested : Bool) (ls ms : List Lexeme) :
    readLevels nested (ls ++ ms) = readLevels nested ls ++ readLevels nested ms := by
  cases nested with
  | false => rfl
  | true => exact flatMap_append

variable {l : Lexeme} {bs : List (List Item)} {ls : List Lexeme}

theorem readLevels_singleton (nested : Bool) (h : l.levels = [l]) : readLevels nested [l] = [l] := by
  cases nested with
  | false => rfl
  | true => exact (flatMap_singleton ..).trans h

theorem readLevels_cons (nested : Bool) (h : l.levels = [l]) (ls : List Lexeme) :
    readLevels nested (l :: ls) = l :: readLevels nested ls := by
  rw [← singleton_append, readLevels_append, readLevels_singleton nested h]
  rfl

theorem ReadsBranches.length_pos (h : ReadsBranches bs ls) : 0 < bs.length := by
  cases h <;> exact Nat.succ_pos _

/-- Branches do not begin with a suffix. -/
theorem ReadsBranches.ne_times_readLevels (h : ReadsBranches bs (readLevels nested ls)) (hl : l ∈ ls.head?)
    (b : Bounds) : l ≠ .times b := by
  rintro rfl
  obtain ⟨ms, rfl⟩ : ∃ ms, ls = .times b :: ms := List.head?_eq_some_iff.1 hl
  rw [readLevels_cons nested rfl] at h
  exact h.ne_times rfl b rfl

/-- A piece without a suffix ends in a lexeme that takes one. -/
theorem ReadsPieces.takesSuffix_readLevels {x : Item} (h : ReadsPieces [x] (readLevels nested ls))
    (hx : x.isRepeated = false) (hl : l ∈ ls.getLast?) : l.takesSuffix = true := by
  cases nested with
  | false => exact h.takesSuffix hx hl
  | true =>
    obtain ⟨ks, rfl⟩ := List.getLast?_eq_some_iff.1 hl
    obtain ⟨m, hm⟩ := Option.ne_none_iff_exists'.1 (mt List.getLast?_eq_none_iff.1 l.levels_ne_nil)
    rw [← Lexeme.takesSuffix_of_mem_levels hm]
    refine h.takesSuffix hx ?_
    rw [readLevels, flatMap_append, flatMap_singleton, getLast?_append, hm]
    rfl

/-- What stands between parentheses is spelled well if its parts are. -/
theorem IsSpelling.enclosed (h : IsSpelling nested ls) (hreads : ReadsBranches bs (readLevels nested ls))
    (hl : l.IsFit nested) (hne : ∀ d, l ≠ .atom (.escape [d])) : IsSpelling nested (l :: (ls ++ [Lexeme.close])) := by
  refine (IsSpelling.singleton hl).append h.close fun m hm m' hm' => ?_
  cases hm
  refine .of_ne_times hne fun b => ?_
  cases ls with
  | nil =>
    cases hm'
    exact fun hb => (nomatch hb)
  | cons => exact hreads.ne_times_readLevels hm' b

end RegexBuilder
