/-
# Reading generated files

A reader for the part of the generated language that generated files are written in. It goes by the rules of that
language and not by how the files are written:

* a comment ends with its line or with the first `*/`, and a block of more than one line counts as the end of a line;
* the end of a line ends a statement if the last token on it is a name, a string, a closing bracket or one of four
  keywords;
* a string stands for bytes: a character for its UTF-8 form, `\xhh` and `\ooo` for one byte, `\u` and `\U` for the
  UTF-8 form of a Unicode scalar value.

The reader takes one glyph after the other (`Scan.step`), so that a text is read part by part (`Scans.append`). What
it reads is cut into a package clause, imports and declarations at the ends of statements outside of brackets
(`outline?`).
-/

import RegexBuilder.Generate.PackageClause
import Mathlib.Tactic.Common

namespace RegexBuilder.Generate

open List

/-! ### Tokens -/

/-- A token of a generated file. -/
inductive Token where
  /-- A name or a keyword. -/
  | word (w : Text)
  /-- A string, by the bytes that it stands for. -/
  | string (bytes : List UInt8)
  | mark (c : Char)
  /-- The end of a statement or a declaration. -/
  | stop
deriving DecidableEq, Repr

/-- The marks that are read, one by one. -/
def marks : List Char := ['(', ')', '[', ']', '\x7b', '\x7d', ',', '.', '=', ':', '!', '*']

/-- The marks that close a bracket. -/
def closingMarks : List Char := [')', ']', '\x7d']

/-- A statement ends with the line if it is the last word on it. -/
def endsStatement (w : Text) : Bool :=
  !keywords.contains w ||
    (["break", "continue", "fallthrough", "return"].map Text.ofString).contains w

/-- A part of a name; what is not in ASCII is looked up in the tables. -/
def isWordPart (g : Glyph) : Bool :=
  g.isChar fun c => if c.toNat < 128 then c.isAlphanum || c = '_' else isNamePart (.char c)

/-- The end of a statement, if it is due. -/
def stopIf (due : Bool) : List Token := if due then [.stop] else []

/-- Where the reader is; `due` tells that the next end of a line ends a statement. -/
inductive Scan where
  /-- Between tokens. -/
  | gap (due : Bool)
  /-- Behind the beginning `w` of a word. -/
  | word (w : Text)
  /-- Behind a slash. -/
  | slash (due : Bool)
  /-- In a comment that ends with the line. -/
  | line (due : Bool)
  /-- In a block, which has a line break so far if `broken` is true, right behind a star if `star` is
  true. -/
  | block (due broken star : Bool)
  /-- In a string, the beginning of which stands for `bytes`. -/
  | literal (bytes : List UInt8)
  /-- Behind a backslash in a string. -/
  | escape (bytes : List UInt8)
  /-- In a string, with `left` digits to come of a number that begins with `value` and is that of a
  byte or of a character. -/
  | code (bytes : List UInt8) (base left value : Nat) (isByte : Bool)
deriving DecidableEq, Repr

namespace Scan

/-- A glyph between tokens. -/
def between (due : Bool) (g : Glyph) : Option (Scan × List Token) :=
  if g = '\n' then some (.gap false, stopIf due)
  else if isTokenBlank g then some (.gap due, [])
  else if g = '/' then some (.slash due, [])
  else if g = '"' then some (.literal [], [])
  else if g = ';' then some (.gap false, [.stop])
  else
    match g with
    | .char c =>
      if c ∈ marks then some (.gap (c ∈ closingMarks), [.mark c])
      else if isNameStart g then some (.word [g], [])
      else none
    | .stray _ => none

/-- The bytes of the number `n` in a string. -/
def codeBytes? (isByte : Bool) (n : Nat) : Option (List UInt8) :=
  if isByte then if n < 256 then some [UInt8.ofNat n] else none
  else (Text.scalar? 0 n).map String.utf8EncodeChar

/-- A glyph behind a backslash in a string. -/
def escaped (bytes : List UInt8) (g : Glyph) : Option Scan :=
  match g with
  | .char 'a' => some (.literal (bytes ++ [7]))
  | .char 'b' => some (.literal (bytes ++ [8]))
  | .char 't' => some (.literal (bytes ++ [9]))
  | .char 'n' => some (.literal (bytes ++ [10]))
  | .char 'v' => some (.literal (bytes ++ [11]))
  | .char 'f' => some (.literal (bytes ++ [12]))
  | .char 'r' => some (.literal (bytes ++ [13]))
  | .char '"' => some (.literal (bytes ++ [34]))
  | .char '\\' => some (.literal (bytes ++ [92]))
  | .char 'x' => some (.code bytes 16 2 0 true)
  | .char 'u' => some (.code bytes 16 4 0 false)
  | .char 'U' => some (.code bytes 16 8 0 false)
  | g => (Text.addDigit 8 0 g).map fun n => .code bytes 8 2 n true

/-- A digit of a number in a string. -/
def coded (bytes : List UInt8) (base left value : Nat) (isByte : Bool) (g : Glyph) : Option Scan := do
  let n ← Text.addDigit base value g
  if left = 1 then (codeBytes? isByte n).map fun bs => .literal (bytes ++ bs)
  else some (.code bytes base (left - 1) n isByte)

/-- Where the reader is after a glyph, and the tokens that end with it. -/
def step : Scan → Glyph → Option (Scan × List Token)
  | .gap due, g => between due g
  | .word w, g =>
    if isWordPart g then some (.word (w ++ [g]), [])
    else (between (endsStatement w) g).map fun p => (p.1, .word w :: p.2)
  | .slash due, g =>
    if g = '/' then some (.line due, [])
    else if g = '*' then some (.block due false false, [])
    else none
  | .line due, g => if g = '\n' then some (.gap false, stopIf due) else some (.line due, [])
  | .block due broken star, g =>
    if star ∧ g = '/' then
      if broken then some (.gap false, stopIf due) else some (.gap due, [])
    else some (.block due (broken || g = '\n') (g = '*'), [])
  | .literal bytes, g =>
    if g = '"' then some (.gap true, [.string bytes])
    else if g = '\\' then some (.escape bytes, [])
    else if g = '\n' then none
    else some (.literal (bytes ++ g.bytes), [])
  | .escape bytes, g => (escaped bytes g).map (·, [])
  | .code bytes base left value isByte, g => (coded bytes base left value isByte g).map (·, [])

/-- Where the reader is after a text, and the tokens that end in it. -/
def run : Scan → Text → Option (Scan × List Token)
  | s, [] => some (s, [])
  | s, g :: rest => do
    let (s, ts) ← s.step g
    let (s, us) ← s.run rest
    return (s, ts ++ us)

/-- The tokens at the end of a text. -/
def finish : Scan → Option (List Token)
  | .gap due | .line due => some (stopIf due)
  | .word w => some (.word w :: stopIf (endsStatement w))
  | _ => none

end Scan

/-- The tokens of a text. -/
def tokens? (t : Text) : Option (List Token) := do
  let (s, ts) ← Scan.run (.gap false) t
  let us ← s.finish
  return ts ++ us

/-! ### Items -/

/-- The brackets that are to be closed after a token, the innermost first. -/
def nest (closers : List Char) : Token → Option (List Char)
  | .mark c =>
    if c = '(' then some (')' :: closers)
    else if c = '[' then some (']' :: closers)
    else if c = '\x7b' then some ('\x7d' :: closers)
    else if c ∈ closingMarks then if closers.head? = some c then some closers.tail else none
    else some closers
  | _ => some closers

/-- The items of a file, where `item` is the beginning of the first one and `closers` are the brackets
that are to be closed. -/
def itemsFrom : (closers : List Char) → (item : List Token) → List Token → Option (List (List Token))
  | [], [], [] => some []
  | _, _, [] => none
  | closers, item, t :: rest =>
    if t = .stop ∧ closers = [] then (itemsFrom [] [] rest).map (item :: ·)
    else do
      let closers ← nest closers t
      itemsFrom closers (item ++ [t]) rest

/-- An import of the package at a path, under a name of its own if it has one. -/
structure Import where
  localName : Option Text
  path : List UInt8
deriving DecidableEq, Repr

/-- A declaration of a name. -/
inductive Item where
  /-- A constant with a string as its value. -/
  | constant (name : Text) (value : List UInt8)
  /-- A variable with the tokens of its initialiser. -/
  | var (name : Text) (initializer : List Token)
  | function (name : Text)
deriving DecidableEq, Repr

/-- The name that is declared. -/
def Item.name : Item → Text
  | constant name _ => name
  | var name _ => name
  | function name => name

/-- The import that the tokens make. -/
def import? : List Token → Option Import
  | [.word kind, .string path] => if kind = ("import" : Text) then some ⟨none, path⟩ else none
  | [.word kind, .word name, .string path] =>
    if kind = ("import" : Text) ∧ isName name then some ⟨some name, path⟩ else none
  | _ => none

/-- The declaration that the tokens make. -/
def item? : List Token → Option Item
  | .word kind :: .word name :: .mark c :: rest =>
    if !isName name then none
    else if kind = ("func" : Text) ∧ c = '(' then some (.function name)
    else if c ≠ '=' then none
    else if kind = ("var" : Text) ∧ rest ≠ [] then some (.var name rest)
    else
      match rest with
      | [.string value] => if kind = ("const" : Text) then some (.constant name value) else none
      | _ => none
  | _ => none

/-- What a file says. -/
structure Outline where
  package : Text
  imports : List Import
  items : List Item
deriving DecidableEq, Repr

/-- The names that are declared at the top level of a file. -/
def Outline.declared (o : Outline) : List Text := o.items.map Item.name

/-- What the items of a file say: a package clause, then imports, then declarations. -/
def Outline.ofItems? : List (List Token) → Option Outline
  | [.word kind, .word name] :: rest => do
    if kind ≠ ("package" : Text) ∨ !isName name then none
    let items ← (rest.dropWhile fun i => (import? i).isSome).mapM item?
    return ⟨name, (rest.takeWhile fun i => (import? i).isSome).filterMap import?, items⟩
  | _ => none

/-- What the bytes of a file say, if they are the UTF-8 form of characters that may stand in it. -/
def outline? (t : Text) : Option Outline := do
  if !t.canonical.all isSourceGlyph then none
  let ts ← tokens? t.canonical
  let items ← itemsFrom [] [] ts
  Outline.ofItems? items

/-! ### Reading part by part -/

/-- The text leads the reader from `s` to `s'`, and the tokens `ts` end in it. -/
def Scans (s : Scan) (t : Text) (ts : List Token) (s' : Scan) : Prop := s.run t = some (s', ts)

instance (s s' : Scan) (t : Text) (ts : List Token) : Decidable (Scans s t ts s') :=
  inferInstanceAs (Decidable (s.run t = some (s', ts)))

section

variable {s s' s'' : Scan} {t u : Text} {ts us : List Token} {g : Glyph} {w : Text} {due : Bool}

theorem Scans.nil (s : Scan) : Scans s [] [] s := rfl

theorem Scans.cons (h : s.step g = some (s', ts)) (h' : Scans s' t us s'') : Scans s (g :: t) (ts ++ us) s'' := by
  have hrun : s'.run t = some (s'', us) := h'
  simp [Scans, Scan.run, h, hrun]

/-- A glyph that ends no token. -/
theorem Scans.skip (h : s.step g = some (s', [])) (h' : Scans s' t us s'') : Scans s (g :: t) us s'' := Scans.cons h h'

/-- **A text that is put together is read part by part.** -/
theorem Scans.append (h : Scans s t ts s') (h' : Scans s' u us s'') : Scans s (t ++ u) (ts ++ us) s'' := by
  induction t generalizing s ts with
  | nil =>
    cases h
    exact h'
  | cons g t ih =>
    obtain ⟨⟨s₁, ts₁⟩, hstep, h⟩ := Option.bind_eq_some_iff.1 h
    obtain ⟨⟨s₂, ts₂⟩, hrun, h⟩ := Option.bind_eq_some_iff.1 h
    cases h
    rw [append_assoc]
    exact .cons hstep (ih hrun)

/-- Parts of which the second one ends no token. -/
theorem Scans.append_nil (h : Scans s t ts s') (h' : Scans s' u [] s'') : Scans s (t ++ u) ts s'' := by
  simpa using h.append h'

/-- Parts of which the first one ends no token. -/
theorem Scans.nil_append (h : Scans s t [] s') (h' : Scans s' u us s'') : Scans s (t ++ u) us s'' :=
  h.append h'

theorem tokens?_eq (h : Scans (.gap false) t ts (.gap false)) : tokens? t = some ts := by
  have hrun : Scan.run (.gap false) t = some (.gap false, ts) := h
  simp [tokens?, hrun, Scan.finish, stopIf]

/-! ### Whole lines -/

/-- The text is made of whole lines with the given tokens, and all of it may stand in a file. -/
structure Says (t : Text) (ts : List Token) : Prop where
  scans : Scans (.gap false) t ts (.gap false)
  source : ∀ g ∈ t, isSourceGlyph g = true

theorem Says.nil : Says [] [] := ⟨.nil _, nofun⟩

theorem Says.append (ht : Says t ts) (hu : Says u us) : Says (t ++ u) (ts ++ us) :=
  ⟨ht.scans.append hu.scans, forall_mem_append.2 ⟨ht.source, hu.source⟩⟩

theorem Says.flatMap {α : Type} {xs : List α} {f : α → Text} {k : α → List Token}
    (h : ∀ x ∈ xs, Says (f x) (k x)) : Says (xs.flatMap f) (xs.flatMap k) := by
  induction xs with
  | nil => exact .nil
  | cons x xs ih =>
    obtain ⟨hx, hxs⟩ := forall_mem_cons.1 h
    exact hx.append (ih hxs)

theorem says_break : Says "\n" [] := ⟨by decide, by decide⟩

/-! ### Words -/

/-- The letters and digits of ASCII are the ones in the tables. -/
theorem isWordPart_eq (g : Glyph) : isWordPart g = isNamePart g := by
  cases g with
  | stray => rfl
  | char c =>
    show (if c.toNat < 128 then c.isAlphanum || c = '_' else isNamePart (.char c)) = _
    split
    · next hc =>
      have hascii : ∀ n < 128, ((Char.ofNat n).isAlphanum || Char.ofNat n = '_') =
          isNamePart (.char (Char.ofNat n)) := by decide +kernel
      have h := hascii c.toNat hc
      rwa [Char.ofNat_toNat] at h
    · rfl

/-- Characters that are no part of a name. -/
def separators : List Char := ['\n', ' ', '\t', '\r', '/', '"', ';'] ++ marks

theorem isNamePart_eq_false {c : Char} (hc : c ∈ separators) : isNamePart (.char c) = false := by
  -- a quantifier over the list would be decided over all characters
  have hall : separators.all (fun c => !isWordPart (.char c)) = true := by decide
  rw [← isWordPart_eq]
  simpa using all_eq_true.1 hall c hc

/-- What a name may begin with is not looked for by the reader elsewhere. -/
theorem ne_of_isNameStart {c : Char} (h : isNameStart (.char c) = true) :
    c ≠ '\n' ∧ c ≠ ' ' ∧ c ≠ '\t' ∧ c ≠ '\r' ∧ c ≠ '/' ∧ c ≠ '"' ∧ c ≠ ';' ∧ c ∉ marks := by
  have hpart : isNamePart (.char c) = true := by simp [isNamePart, h]
  have hc : c ∉ separators := fun hc => absurd hpart (by simp [isNamePart_eq_false hc])
  simpa [separators, not_or] using hc

/-- A part of a name may stand in a file, and within a line. -/
theorem source_of_isNamePart (h : isNamePart g = true) : isSourceGlyph g = true ∧ g ≠ .char '\n' := by
  cases g with
  | stray => cases h
  | char c =>
    have hne : ∀ x, isNamePart (.char x) = false → c ≠ x := by
      rintro x hx rfl
      simp [hx] at h
    have hnul : c ≠ '\x00' := hne '\x00' (by decide +kernel)
    have hmark : c ≠ '\uFEFF' := hne '\uFEFF' (by decide +kernel)
    have hbreak : c ≠ '\n' := hne '\n' (isNamePart_eq_false (by decide))
    exact ⟨by simp [isSourceGlyph, Glyph.isChar, hnul, hmark], mt Glyph.char.inj hbreak⟩

theorem Scan.between_of_isNameStart (h : isNameStart g = true) (due : Bool) : between due g = some (.word [g], []) := by
  cases g with
  | stray => cases h
  | char => simp [between, isTokenBlank, Glyph.isChar, ne_of_isNameStart h, h]

theorem Scans.wordParts (ht : ∀ g ∈ t, isNamePart g = true) (w : Text) : Scans (.word w) t [] (.word (w ++ t)) := by
  induction t generalizing w with
  | nil =>
    rw [List.append_nil]
    exact .nil _
  | cons g t ih =>
    obtain ⟨hg, ht⟩ := forall_mem_cons.1 ht
    have hrest := ih ht (w ++ [g])
    rw [append_assoc] at hrest
    exact .skip (if_pos ((isWordPart_eq g).trans hg)) hrest

/-- A letter or an underscore, and then parts of a name. -/
def isWord : Text → Bool
  | [] => false
  | g :: rest => isNameStart g && rest.all isNamePart

/-- A word is read as one token. -/
theorem Scans.ofWord (hw : isWord w = true) (due : Bool) : Scans (.gap due) w [] (.word w) := by
  cases w with
  | nil => cases hw
  | cons g w =>
    obtain ⟨hg, hw⟩ := Bool.and_eq_true_iff.1 hw
    exact .skip (Scan.between_of_isNameStart hg due) (.wordParts (all_eq_true.1 hw) [g])

/-- The text does not go on with a word that stands before it. -/
def endsWord (t : Text) : Bool := t.head?.any fun g => !isNamePart g

theorem endsWord_cons {c : Char} (hc : c ∈ separators) (t : Text) : endsWord (.char c :: t) = true := by
  simp [endsWord, isNamePart_eq_false hc]

theorem endsWord_append (h : endsWord t = true) (u : Text) : endsWord (t ++ u) = true := by
  cases t with
  | nil => cases h
  | cons => exact h

/-- **A word is read if what follows it does not go on with it.** -/
theorem Scans.word (hw : isWord w = true) (ht : endsWord t = true)
    (h : Scans (.gap (endsStatement w)) t ts s) (due : Bool) : Scans (.gap due) (w ++ t) (.word w :: ts) s := by
  refine (Scans.ofWord hw due).nil_append ?_
  cases t with
  | nil => cases ht
  | cons g t =>
    obtain ⟨⟨s₁, ts₁⟩, hstep, h⟩ := Option.bind_eq_some_iff.1 h
    obtain ⟨⟨s₂, ts₂⟩, hrun, h⟩ := Option.bind_eq_some_iff.1 h
    cases h
    have hg : isNamePart g = false := by simpa [endsWord] using ht
    have hbetween : Scan.between (endsStatement w) g = some (s₁, ts₁) := hstep
    have hword : (Scan.word w).step g = some (s₁, .word w :: ts₁) := by
      simp [Scan.step, isWordPart_eq, hg, hbetween]
    exact .cons hword hrun

/-- A name is a word. -/
theorem isWord_of_isName (h : isName w = true) : isWord w = true := by
  cases w with
  | nil => cases h
  | cons => exact (Bool.and_eq_true_iff.1 h).1

/-- A name is no keyword, so that a statement ends with it. -/
theorem endsStatement_of_isName (h : isName w = true) : endsStatement w = true := by
  cases w with
  | nil => cases h
  | cons =>
    have hkeyword := (Bool.and_eq_true_iff.1 h).2
    simp only [endsStatement, hkeyword, Bool.true_or]

/-- A keyword, after which a line may go on. -/
theorem Scans.keyword (hw : isWord w = true) (hends : endsStatement w = false) (ht : endsWord t = true)
    (h : Scans (.gap false) t ts s) (due : Bool) : Scans (.gap due) (w ++ t) (.word w :: ts) s :=
  .word hw ht (hends.symm ▸ h) due

/-- A name, after which the end of a line ends a statement. -/
theorem Scans.name (hw : isName w = true) (ht : endsWord t = true) (h : Scans (.gap true) t ts s)
    (due : Bool) : Scans (.gap due) (w ++ t) (.word w :: ts) s :=
  .word (isWord_of_isName hw) ht ((endsStatement_of_isName hw).symm ▸ h) due

end

end RegexBuilder.Generate
