/-
# Lexemes of a written pattern

A written pattern is read in two steps. This is the first: the text is cut into lexemes.

| lexeme | written |
| --- | --- |
| `atom` | a character, an escape, a set in brackets, a comment or options for what follows |
| `opening` | what opens a group: `(`, `(?:`, `(?>`, `(?=`, `(?!`, `(?<=`, `(?<!`, `(?<name>`, `(?i-m:` |
| `test` | what opens a conditional: `(?(test)` |
| `bar`, `close` | the bar and the closing parenthesis |
| `times` | `?`, `*`, `+`, `\x7bn\x7d`, `\x7bn,\x7d` or `\x7bn,m\x7d`, and a `?` if lazy |

A digit behind a backslash takes up to two more digits with it, and a suffix takes a `?`. Where no lexeme runs into
the next (`Lexeme.Apart`), lexemes are read as they were spelled (`lexemes?_spell`).
-/

import Mathlib.Data.Bool.AllAny
import Mathlib.Data.List.Chain
import RegexBuilder.Proofs.Escape

namespace RegexBuilder

open List

/-- The smallest parts of a pattern. -/
inductive Atom where
  /-- A character that stands for itself, with a backslash or without. -/
  | char (c : Char)
  /-- One of `.`, `^` and `$` without a backslash. -/
  | sign (c : Char)
  /-- What stands behind a backslash and has a meaning of its own, such as `d`, `12` or `x41`. -/
  | escape (body : Text)
  /-- A set with its brackets. -/
  | bracket (t : Text)
  /-- A comment, or options for what follows, with the parentheses. -/
  | note (t : Text)
deriving DecidableEq, Repr

/-- What a written pattern is cut into. -/
inductive Lexeme where
  | atom (a : Atom)
  | opening (t : Text)
  | test (t : Text)
  | bar
  | close
  | times (b : Bounds)
deriving DecidableEq, Repr

/-- How the atom is written. -/
def Atom.form : Atom → Text
  | char c => escapeChar literalMeta c
  | sign c => [.char c]
  | escape body => .char '\\' :: body
  | bracket t => t
  | note t => t

/-- How the lexeme is written. -/
def Lexeme.form : Lexeme → Text
  | atom a => a.form
  | opening t => t
  | test t => "(?(" ++ t ++ ")"
  | bar => "|"
  | close => ")"
  | times b => b.suffix

/-- How the lexemes are written. -/
def spell (ls : List Lexeme) : Text := ls.flatMap Lexeme.form

/-! ### Reading a lexeme -/

/-- The number of glyphs behind the backslash that belong to an escape. -/
def escapeLength : Text → Nat
  | [] => 1
  | g :: rest =>
    if g.isDigit then 1 + ((rest.take 2).takeWhile Glyph.isDigit).length
    else if g = .char 'x' then 3
    else if g = .char 'u' then 5
    else if g = .char 'c' then 2
    else if g = .char 'p' ∨ g = .char 'P' then 2 + (rest.takeWhile (· ≠ .char '\x7d')).length
    else if g = .char 'k' then 2 + (rest.takeWhile (· ≠ .char '>')).length
    else 1

/-- Reads what stands behind a backslash. Only a letter or a digit gets a meaning by it. -/
def escape? (t : Text) : Option (Atom × Text) :=
  match t with
  | .char c :: rest =>
    if c.isAlphanum then
      if escapeLength t ≤ t.length then
        some (.escape (t.take (escapeLength t)), t.drop (escapeLength t))
      else none
    else some (.char c, rest)
  | _ => none

/-- Reads the rest of a set up to the bracket that closes it, in which `depth` more sets are open. -/
def closing? : Nat → Text → Option (Text × Text)
  | _, [] => none
  | depth, .char '\\' :: g :: rest =>
    (closing? depth rest).map fun x => (.char '\\' :: g :: x.1, x.2)
  | depth, .char '[' :: rest => (closing? (depth + 1) rest).map fun x => (.char '[' :: x.1, x.2)
  | 0, .char ']' :: rest => some ([.char ']'], rest)
  | depth + 1, .char ']' :: rest => (closing? depth rest).map fun x => (.char ']' :: x.1, x.2)
  | depth, g :: rest => (closing? depth rest).map fun x => (g :: x.1, x.2)

/-- Reads up to the next `g`, and makes a lexeme of what stands before. -/
def until? (g : Glyph) (make : Text → Lexeme) (t : Text) : Option (Lexeme × Text) :=
  match t.cut g with
  | (u, some rest) => some (make u, rest)
  | (_, none) => none

/-- A glyph of inline options. -/
def isFlag (g : Glyph) : Bool := g.isChar fun c => c ∈ ['i', 'm', 'n', 's', 'x', '-']

/-- Reads options behind `(?`, for a group or for what follows. -/
def options? (t : Text) : Option (Lexeme × Text) :=
  match t.dropWhile isFlag with
  | .char ':' :: rest => some (.opening ("(?" ++ t.takeWhile isFlag ++ ":"), rest)
  | .char ')' :: rest => some (.atom (.note ("(?" ++ t.takeWhile isFlag ++ ")")), rest)
  | _ => none

/-- Reads what stands behind `(?<`: a lookbehind or a name. -/
def angle? (t : Text) : Option (Lexeme × Text) :=
  match t with
  | .char '=' :: rest => some (.opening "(?<=", rest)
  | .char '!' :: rest => some (.opening "(?<!", rest)
  | _ => until? (.char '>') (fun u => .opening ("(?<" ++ u ++ ">")) t

/-- Reads what stands behind `(`. -/
def opening? (t : Text) : Option (Lexeme × Text) :=
  match t with
  | .char '?' :: .char '(' :: rest => until? (.char ')') .test rest
  | .char '?' :: .char '#' :: rest =>
    until? (.char ')') (fun u => .atom (.note ("(?#" ++ u ++ ")"))) rest
  | .char '?' :: .char '>' :: rest => some (.opening "(?>", rest)
  | .char '?' :: .char '=' :: rest => some (.opening "(?=", rest)
  | .char '?' :: .char '!' :: rest => some (.opening "(?!", rest)
  | .char '?' :: .char '<' :: rest => angle? rest
  | .char '?' :: rest => options? rest
  | _ => some (.opening "(", t)

/-- The number that one or more decimal digits are. -/
def numeral? (t : Text) : Option Int := if t = [] then none else (t.ofDigits? 10).map Int.ofNat

/-- Reads what stands between braces: `n`, `n,` or `n,m`. -/
def repetition? (t : Text) : Option Bounds :=
  match t.cut (.char ',') with
  | (n, none) => (numeral? n).map fun n => ⟨n, n, true⟩
  | (n, some []) => (numeral? n).map fun n => ⟨n, unbounded, true⟩
  | (n, some m) => (numeral? n).bind fun n => (numeral? m).map fun m => ⟨n, m, true⟩

/-- Reads a suffix that begins with `c`, without the mark of a lazy one. -/
def count? (c : Char) (rest : Text) : Option (Bounds × Text) :=
  if c = '?' then some (⟨0, 1, true⟩, rest)
  else if c = '*' then some (⟨0, unbounded, true⟩, rest)
  else if c = '+' then some (⟨1, unbounded, true⟩, rest)
  else
    match rest.cut (.char '\x7d') with
    | (u, some rest) => (repetition? u).map (·, rest)
    | (_, none) => none

/-- Takes the mark of a lazy suffix with it. -/
def lazy : Bounds × Text → Lexeme × Text
  | (b, .char '?' :: rest) => (.times { b with greedy := false }, rest)
  | (b, rest) => (.times b, rest)

/-- Reads the first lexeme of a text. -/
def lexeme? : Text → Option (Lexeme × Text)
  | .char c :: rest =>
    if c = '\\' then (escape? rest).map fun x => (.atom x.1, x.2)
    else if c = '[' then (closing? 0 rest).map fun x => (.atom (.bracket (.char c :: x.1)), x.2)
    else if c = '(' then opening? rest
    else if c = '|' then some (.bar, rest)
    else if c = ')' then some (.close, rest)
    else if c ∈ ['?', '*', '+', '\x7b'] then (count? c rest).map lazy
    else if c ∈ ['.', '^', '$'] then some (.atom (.sign c), rest)
    else some (.atom (.char c), rest)
  | _ => none

/-- What `read` finds one after another in the text after its first `skip` glyphs. -/
def cutAfter (read : Text → Option (Lexeme × Text)) : (skip : Nat) → Text → Option (List Lexeme)
  | _, [] => some []
  | skip + 1, _ :: t => cutAfter read skip t
  | 0, g :: t =>
    match read (g :: t) with
    | some (l, rest) => (cutAfter read (t.length - rest.length) t).map (l :: ·)
    | none => none

/-- The lexemes of the text, if all of it can be read. -/
def lexemes? (t : Text) : Option (List Lexeme) := cutAfter lexeme? 0 t

/-! ### Lexemes that keep apart -/

namespace Lexeme

/-- A suffix may stand behind the lexeme. -/
def takesSuffix : Lexeme → Bool
  | atom _ | close => true
  | opening _ | test _ | bar | times _ => false

/-- The text behind the lexeme does not run into it: no digit stands behind an escape of one digit,
and a `?` only where a suffix may stand. -/
structure Apart (l : Lexeme) (rest : Text) : Prop where
  digit : ∀ {d e}, l = atom (.escape [d]) → d.isDigit → rest.head? = some e → e.isDigit = false
  suffix : l.takesSuffix = false → rest.head? ≠ some (.char '?')

theorem apart_nil (l : Lexeme) : l.Apart [] := ⟨fun _ _ h => (nomatch h), fun _ h => (nomatch h)⟩

/-- The lexeme is read as it is written where nothing runs into it. Its form is complete, and ends in
an escape of one digit only if it is that escape. -/
structure IsLegible (l : Lexeme) : Prop where
  read : ∀ {rest}, l.Apart rest → lexeme? (l.form ++ rest) = some (l, rest)
  complete : l.form.IsComplete
  digit : ∀ {u d}, l.form = u ++ [Glyph.char '\\', d] → d.isDigit → l = atom (.escape [d])

/-- The lexeme `next` does not run into the lexeme `l` before it. -/
structure Precedes (l next : Lexeme) : Prop where
  digit : ∀ {d c}, l = atom (.escape [d]) → d.isDigit → next = atom (.char c) → c.isDigit = false
  suffix : ∀ {b}, next = times b → l.takesSuffix = true

/-- The form of the lexeme shows what it is: it begins with a digit only if it is that digit, with a `?` only if it is
a suffix, and ends in an escape of one digit only if it is that escape. -/
structure IsWhole (l : Lexeme) : Prop where
  ne_nil : l.form ≠ []
  first : ∀ {c t}, l.form = .char c :: t → c.isDigit = true → l = atom (.char c)
  mark : ∀ {t}, l.form = .char '?' :: t → ∃ b, l = times b
  complete : l.form.IsComplete
  digit : ∀ {u d}, l.form = u ++ [Glyph.char '\\', d] → d.isDigit → l = atom (.escape [d])

variable {l : Lexeme}

/-- What ends in neither a digit nor a backslash is complete and ends in no escape of one digit. -/
theorem complete_of_ending {t v : Text} {g : Glyph} (hform : t = v ++ [g]) (hdigit : g.isDigit = false)
    (hslash : g ≠ .char '\\') : t.IsComplete ∧ ∀ {u d}, t = u ++ [Glyph.char '\\', d] → d.isDigit = false := by
  refine ⟨?_, fun {u d} h => ?_⟩
  · rw [hform]
    refine Text.isComplete_append_of_not_mem v (cons_ne_nil _ _) fun h => ?_
    exact hslash (mem_singleton.1 h).symm
  · have hend : v ++ [g] = (u ++ [Glyph.char '\\']) ++ [d] := by
      rw [← hform, h, append_assoc]
      rfl
    rwa [← singleton_inj.1 (append_inj' hend rfl).2]

/-- A lexeme that ends in neither a digit nor a backslash only has to be read. -/
theorem IsLegible.of_ending {v : Text} {g : Glyph} (hform : l.form = v ++ [g])
    (hdigit : g.isDigit = false) (hslash : g ≠ .char '\\')
    (hread : ∀ {rest}, l.Apart rest → lexeme? (l.form ++ rest) = some (l, rest)) : l.IsLegible := by
  obtain ⟨hcomplete, hend⟩ := complete_of_ending hform hdigit hslash
  refine ⟨hread, hcomplete, fun h hd => ?_⟩
  rw [hend h] at hd
  cases hd

theorem IsLegible.form_ne_nil (h : l.IsLegible) : l.form ≠ [] := by
  intro hnil
  have hread := h.read l.apart_nil
  rw [hnil] at hread
  cases hread

end Lexeme

variable {c : Char} {rest : Text} {l : Lexeme}

/-- Characters with a meaning are neither letters nor digits. -/
theorem isAlphanum_of_mem_literalMeta (hc : c ∈ literalMeta) : c.isAlphanum = false := by
  have hall : ∀ c ∈ literalMeta, c.isAlphanum = false := all_iff_forall_prop.1 (by decide)
  exact hall c hc

theorem not_mem_literalMeta_of_isDigit (hc : c.isDigit = true) : c ∉ literalMeta := by
  intro hmem
  have hdigit := (Bool.or_eq_false_iff.1 (isAlphanum_of_mem_literalMeta hmem)).2
  rw [hc] at hdigit
  cases hdigit

/-- A character without a meaning is read as itself. -/
theorem lexeme?_of_not_mem (hc : c ∉ literalMeta) (rest : Text) :
    lexeme? (.char c :: rest) = some (.atom (.char c), rest) := by
  have hne : ∀ c' ∈ literalMeta, c ≠ c' := by
    rintro c' hc' rfl
    exact hc hc'
  have hsuffix : ∀ c' ∈ ['?', '*', '+', '\x7b'], c' ∈ literalMeta := all_iff_forall_prop.1 (by decide)
  have hsign : ∀ c' ∈ ['.', '^', '$'], c' ∈ literalMeta := all_iff_forall_prop.1 (by decide)
  rw [lexeme?, if_neg (hne _ (by decide)), if_neg (hne _ (by decide)), if_neg (hne _ (by decide)),
    if_neg (hne _ (by decide)), if_neg (hne _ (by decide)), if_neg fun h => hc (hsuffix c h),
    if_neg fun h => hc (hsign c h)]

/-- A text that begins with a digit is read as that digit. -/
theorem lexeme?_of_isDigit (hc : c.isDigit) (rest : Text) : lexeme? (.char c :: rest) = some (.atom (.char c), rest) :=
  lexeme?_of_not_mem (not_mem_literalMeta_of_isDigit hc) rest

/-- A text that begins as a suffix does is read as one. -/
theorem lexeme?_of_mem (hc : c ∈ ['?', '*', '+', '\x7b']) (rest : Text) :
    lexeme? (.char c :: rest) = (count? c rest).map lazy := by
  have hne : ∀ c ∈ ['?', '*', '+', '\x7b'], c ≠ '\\' ∧ c ≠ '[' ∧ c ≠ '(' ∧ c ≠ '|' ∧ c ≠ ')' :=
    all_iff_forall_prop.1 (by decide)
  obtain ⟨h₁, h₂, h₃, h₄, h₅⟩ := hne c hc
  rw [lexeme?, if_neg h₁, if_neg h₂, if_neg h₃, if_neg h₄, if_neg h₅, if_pos hc]

/-- A text that begins with `?` is read as a suffix. -/
theorem exists_times_of_lexeme? {rest' : Text} (h : lexeme? (.char '?' :: rest) = some (l, rest')) :
    ∃ b, l = .times b := by
  rw [lexeme?_of_mem (by decide)] at h
  obtain ⟨x, -, hx⟩ := Option.map_eq_some_iff.1 h
  unfold lazy at hx
  split at hx
  all_goals
    cases hx
    exact ⟨_, rfl⟩

namespace Lexeme

variable {l next : Lexeme}

theorem IsLegible.isWhole (h : l.IsLegible) : l.IsWhole := by
  have hread : ∀ {c t}, l.form = .char c :: t → lexeme? (.char c :: t) = some (l, []) := by
    intro c t hform
    rw [← hform, ← h.read l.apart_nil, List.append_nil]
  refine ⟨h.form_ne_nil, fun hform hc => ?_, fun hform => ?_, h.complete, h.digit⟩
  · have hl := hread hform
    rw [lexeme?_of_isDigit hc] at hl
    cases hl
    rfl
  · exact exists_times_of_lexeme? (hread hform)

/-- **What is spelled by the next lexeme keeps apart if the next lexeme does.** -/
theorem Precedes.apart (h : l.Precedes next) (hnext : next.IsWhole) (rest : Text) : l.Apart (next.form ++ rest) := by
  obtain ⟨g, t, hform⟩ := exists_cons_of_ne_nil hnext.ne_nil
  rw [hform]
  refine ⟨fun hl hd he => ?_, fun hl hg => ?_⟩
  · cases he
    cases g with
    | stray => rfl
    | char c =>
      cases hc : c.isDigit with
      | false => exact hc
      | true =>
        rw [h.digit hl hd (hnext.first hform hc)] at hc
        cases hc
  · cases hg
    obtain ⟨b, hb⟩ := hnext.mark hform
    rw [h.suffix hb] at hl
    cases hl

end Lexeme

/-! ### Spelling and reading -/

theorem spell_append (ls ms : List Lexeme) : spell (ls ++ ms) = spell ls ++ spell ms :=
  flatMap_append

section

variable {read : Text → Option (Lexeme × Text)}

/-- What is skipped does not matter. -/
theorem cutAfter_append (u t : Text) : cutAfter read u.length (u ++ t) = cutAfter read 0 t := by
  induction u with
  | nil => rfl
  | cons g u ih => exact ih

/-- Behind a lexeme that is read the reading goes on. -/
theorem cutAfter_of_read {rest : Text} {l : Lexeme} (hl : l.form ≠ []) (h : read (l.form ++ rest) = some (l, rest)) :
    cutAfter read 0 (l.form ++ rest) = (cutAfter read 0 rest).map (l :: ·) := by
  obtain ⟨g, u, hform⟩ := exists_cons_of_ne_nil hl
  rw [hform, cons_append] at h ⊢
  have hskip : (u ++ rest).length - rest.length = u.length := by
    rw [length_append, Nat.add_sub_cancel]
  rw [cutAfter, h]
  show (cutAfter read ((u ++ rest).length - rest.length) (u ++ rest)).map _ = _
  rw [hskip, cutAfter_append]

/-- **What is spelled is read as the same lexemes,** by whatever reads each of them. -/
theorem cutAfter_spell {ls : List Lexeme}
    (hread : ∀ l ∈ ls, ∀ {rest}, l.Apart rest → read (l.form ++ rest) = some (l, rest))
    (hwhole : ∀ l ∈ ls, l.IsWhole) (happart : ls.IsChain Lexeme.Precedes) : cutAfter read 0 (spell ls) = some ls := by
  induction ls with
  | nil => rfl
  | cons l ls ih =>
    have htail := ih (fun m hm => hread m (mem_cons_of_mem _ hm))
      (fun m hm => hwhole m (mem_cons_of_mem _ hm)) happart.tail
    have hrest : l.Apart (spell ls) := by
      cases ls with
      | nil => exact l.apart_nil
      | cons next ls =>
        have hnext := hwhole next (mem_cons_of_mem _ mem_cons_self)
        exact (isChain_cons_cons.1 happart).1.apart hnext _
    calc cutAfter read 0 (l.form ++ spell ls)
      _ = (cutAfter read 0 (spell ls)).map (l :: ·) :=
        cutAfter_of_read (hwhole l mem_cons_self).ne_nil (hread l mem_cons_self hrest)
      _ = some (l :: ls) := congrArg (Option.map (l :: ·)) htail

end

end RegexBuilder
