/-
# Reading sets

How a text is read that is one character, one class or one set in brackets, in the dialect with subtractions of sets.

| in a set | read as |
| --- | --- |
| `^` at the beginning | the set is negated |
| `\` with a letter, a code or a sign | a character or a class; octal digits count up to the third |
| a character, `-` and another one | the characters from the one to the other |
| `-` and then `[` | the last item: the set that follows is subtracted |
| `]` | the end of the set |
| anything else | itself |

Sets that are subtracted from one another are read as a list of levels, the outermost first, and end in as many
brackets. Octal codes are read modulo a `limit`: with `512` as they are, with `256` as bytes.

Every character and every class is read from its form in a set (`sign?_form`, `sign?_class`), but `\0` takes octal
digits that follow it.
-/

import Mathlib.Data.List.TakeWhile
import RegexBuilder.Proofs.Legible
import RegexBuilder.Text.WordCharacter

namespace RegexBuilder.SetText

open List Option Text

/-! ### The reader -/

/-- What a sign of the text stands for: a character with a number, or a class. -/
inductive Sign where
  | char (n : Int32)
  | charClass (c : CharClass)
deriving DecidableEq, Repr

/-- What stands in a set: the characters from one number to another, or a class. -/
inductive Extent where
  | span (first last : Int32)
  | charClass (c : CharClass)
deriving DecidableEq, Repr

/-- The item that a sign alone is. -/
def Sign.item : Sign → Extent
  | char n => .span n n
  | charClass c => .charClass c

/-- A set without what is subtracted from it. -/
structure Layer where
  negated : Bool := false
  items : List Extent := []
deriving DecidableEq, Repr

/-- An octal digit. -/
def isOctal (g : Glyph) : Bool := g.isChar fun c => '0' ≤ c && c ≤ '7'

/-- The code of at most three octal digits at the front. -/
def octal? (limit : Nat) (t : Text) : Option (Sign × Text) :=
  let digits := (t.take 3).takeWhile isOctal
  (Text.ofDigits? 8 digits).map fun n => (.char (Int32.ofNat (n % limit)), t.drop digits.length)

/-- The code of `width` hexadecimal digits at the front. -/
def code? (width : Nat) (t : Text) : Option (Sign × Text) :=
  if width ≤ t.length then
    (Text.ofDigits? 16 (t.take width)).map fun n => (.char (Int32.ofNat n), t.drop width)
  else none

/-- The control character of a letter, or of one of the five signs beside the letters. -/
def control? : Text → Option (Sign × Text)
  | .char c :: t =>
    if '@' ≤ c.toUpper ∧ c.toUpper ≤ '_' then some (.char (Int32.ofNat (c.toUpper.toNat - 64)), t) else none
  | _ => none

/-- A name in braces. -/
def category? (kind : ClassKind) : Text → Option (Sign × Text)
  | .char '\x7b' :: t =>
    match Text.cut (.char '\x7d') t with
    | (name, some rest) => some (.charClass ⟨kind, name⟩, rest)
    | (_, none) => none
  | _ => none

/-- The letters that stand for a class or a character behind a backslash. -/
def letter? : Char → Option Sign
  | 'w' => some (.charClass ⟨.word, []⟩)
  | 'W' => some (.charClass ⟨.notWord, []⟩)
  | 'd' => some (.charClass ⟨.digit, []⟩)
  | 'D' => some (.charClass ⟨.notDigit, []⟩)
  | 's' => some (.charClass ⟨.space, []⟩)
  | 'S' => some (.charClass ⟨.notSpace, []⟩)
  | 'a' => some (.char 7)
  | 'b' => some (.char 8)
  | 't' => some (.char 9)
  | 'n' => some (.char 10)
  | 'v' => some (.char 11)
  | 'f' => some (.char 12)
  | 'r' => some (.char 13)
  | 'e' => some (.char 27)
  | _ => none

/-- What is escaped, and the rest; the backslash is read already. -/
def escape? (limit : Nat) : Text → Option (Sign × Text)
  | .char 'p' :: t => category? .category t
  | .char 'P' :: t => category? .notCategory t
  | .char 'c' :: t => control? t
  | .char 'x' :: t => code? 2 t
  | .char 'u' :: t => code? 4 t
  | .char c :: t =>
    match letter? c with
    | some s => some (s, t)
    | none =>
      if isOctal (.char c) then octal? limit (.char c :: t)
      else if isWordCharacter c then none
      else some (.char (Int32.ofNat c.toNat), t)
  | _ => none

/-- The sign at the front of a text in a set, and the rest. -/
def sign? (limit : Nat) : Text → Option (Sign × Text)
  | .char '\\' :: t => escape? limit t
  | .char c :: t => some (.char (Int32.ofNat c.toNat), t)
  | _ => none

/-- The text behind a `-` goes on with the end of a range, and not with a bracket. -/
def goesOn : Text → Bool
  | .char '[' :: _ | .char ']' :: _ => false
  | _ => true

/-- The characters from number `n` on, as far as the text goes on with a range, and the rest. -/
def span? (limit : Nat) (n : Int32) : Text → Option (Extent × Text)
  | .char '-' :: t =>
    if goesOn t then
      match sign? limit t with
      | some (.char m, rest) => if n ≤ m then some (.span n m, rest) else none
      | _ => none
    else some (.span n n, .char '-' :: t)
  | t => some (.span n n, t)

/-- The item at the front of a text in a set, and the rest. -/
def item? (limit : Nat) (t : Text) : Option (Extent × Text) :=
  match sign? limit t with
  | some (.char n, rest) => span? limit n rest
  | some (.charClass c, rest) => some (.charClass c, rest)
  | none => none

/-- Whether a set begins with `^`, and what follows. -/
def hat : Text → Bool × Text
  | .char '^' :: t => (true, t)
  | t => (false, t)

/-- The levels with one more item at the front of the first. -/
def addItem (x : Extent) : List Layer → List Layer
  | [] => []
  | l :: ls => { l with items := x :: l.items } :: ls

/-- The level that is begun, and those that are subtracted from it; `depth` sets are open around it. -/
def levels? (limit : Nat) : (fuel depth : Nat) → (negated : Bool) → Text → Option (List Layer)
  | 0, _, _, _ => none
  | fuel + 1, depth, negated, t =>
    match t with
    | .char ']' :: rest => if rest = List.replicate depth (.char ']') then some [⟨negated, []⟩] else none
    | .char '-' :: .char '[' :: rest =>
      (levels? limit fuel (depth + 1) (hat rest).1 (hat rest).2).map (⟨negated, []⟩ :: ·)
    | t => (item? limit t).bind fun x => (levels? limit fuel depth negated x.2).map (addItem x.1)

/-- The signs that do not stand for themselves outside a set. -/
def special : List Char := "$()*+.?[\\^\x7b|".toList

/-- A `b` or a digit but `0` that stands alone behind a backslash outside a set: an anchor or a reference. -/
def isNoSign : Text → Bool
  | [g] => g = .char 'b' || (g.isDigit && g != .char '0')
  | _ => false

/-- The set of a sign behind which nothing follows. -/
def alone? : Option (Sign × Text) → Option (List Layer)
  | some (s, []) => some [⟨false, [s.item]⟩]
  | _ => none

/-- **What a text is read as:** the levels of a set, or one character or class outside a set. -/
def read? (limit : Nat) (t : Text) : Option (List Layer) :=
  match t with
  | .char '[' :: t => levels? limit (t.length + 1) 0 (hat t).1 (hat t).2
  | .char '\\' :: t => if isNoSign t then none else alone? (escape? limit t)
  | [.char c] => if c ∈ special then none else some [⟨false, [.span (Int32.ofNat c.toNat) (Int32.ofNat c.toNat)]⟩]
  | _ => none

example : read? 512 "[^a-z\\d-[\\x41\\]]]" = some [⟨true, [.span 97 122, .charClass ⟨.digit, []⟩]⟩,
    ⟨false, [.span 65 65, .span 93 93]⟩] := by decide +kernel

/-! ### Digits -/

variable {c : Char} {g : Glyph} {width n : Nat}

theorem isOctal_iff : isOctal (.char c) = true ↔ 48 ≤ c.toNat ∧ c.toNat ≤ 55 := by
  show (decide ('0' ≤ c) && decide (c ≤ '7')) = true ↔ _
  rw [Bool.and_eq_true, decide_eq_true_iff, decide_eq_true_iff]
  exact Iff.rfl

theorem addDigit_of_isOctal (h : isOctal g = true) (n : Nat) : ∃ m, Text.addDigit 8 n g = some m := by
  cases g with
  | stray => cases h
  | char c =>
    obtain ⟨hlow, hhigh⟩ := isOctal_iff.1 h
    have hdigit : c.isDigit = true := by
      simp only [Char.isDigit, Bool.and_eq_true, decide_eq_true_iff]
      exact ⟨hlow, Nat.le_trans hhigh (by decide)⟩
    refine ⟨n * 8 + (c.toNat - 48), ?_⟩
    rw [Text.addDigit, Text.digitValue?, if_pos hdigit, bind_eq_bind, bind_some, if_pos (by omega)]

/-- Octal digits are a number. -/
theorem exists_ofDigits? {t : Text} (h : ∀ g ∈ t, isOctal g = true) : ∃ n, Text.ofDigits? 8 t = some n := by
  have hfold : ∀ (t : Text) (k : Nat), (∀ g ∈ t, isOctal g = true) → ∃ n, t.foldlM (Text.addDigit 8) k = some n := by
    intro t
    induction t with
    | nil => exact fun k _ => ⟨k, rfl⟩
    | cons g t ih =>
      intro k h
      obtain ⟨hg, ht⟩ := forall_mem_cons.1 h
      obtain ⟨m, hm⟩ := addDigit_of_isOctal hg k
      obtain ⟨n, hn⟩ := ih m ht
      exact ⟨n, by rw [foldlM_cons, hm, bind_eq_bind, bind_some, hn]⟩
  exact hfold t 0 h

theorem isOctal_of_mem_ofNatBase (h : g ∈ Text.ofNatBase 8 width n) : isOctal g = true := by
  have hdigit : ∀ d < 8, isOctal (.char (Nat.digitChar d).toUpper) = true := by decide
  obtain ⟨d, hd, rfl⟩ := exists_of_mem_ofNatBase (by decide) h
  exact hdigit d hd

/-! ### Characters -/

/-- The number is a Unicode scalar value. -/
def IsScalar (n : Int32) : Prop := 0 ≤ n.toInt ∧ n.toInt.toNat.isValidChar

instance (n : Int32) : Decidable (IsScalar n) := inferInstanceAs (Decidable (_ ∧ _))

theorem toNat_read_ofCode {n : Int32} (h : IsScalar n) : Int32.ofNat (Glyph.ofCode n).read.toNat = n := by
  have hnat : (Char.ofNat n.toInt.toNat).toNat = n.toInt.toNat := by
    rw [Char.ofNat, dif_pos h.2]
    rfl
  unfold Glyph.ofCode
  rw [if_pos ⟨h.1, h.2⟩, Glyph.read, hnat]
  refine Int32.toInt_inj.1 ?_
  rw [Int32.toInt_ofNat_of_lt (by have := n.toInt_lt; omega)]
  exact Int.toNat_of_nonneg h.1

/-- What a character is read as: of an octal code, what is left below the limit. -/
def number (limit : Nat) : Character → Int32
  | .octalCode n => Int32.ofNat (n % limit)
  | c => c.value

/-- A digit below 8 that stands for itself. -/
def isOctalDigit : Character → Bool
  | .plain n => 48 ≤ n && n ≤ 55
  | _ => false

theorem isOctalDigit_ofNat (x : Char) : isOctalDigit (.plain (Int32.ofNat x.toNat)) = isOctal (.char x) := by
  have hx : x.toNat < 2 ^ 31 := by
    have hvalid : x.toNat.isValidChar := x.valid
    unfold Nat.isValidChar at hvalid
    omega
  rw [Bool.eq_iff_iff, isOctal_iff]
  show (decide ((48 : Int32) ≤ _) && decide (_ ≤ (55 : Int32))) = true ↔ _
  rw [Bool.and_eq_true, decide_eq_true_iff, decide_eq_true_iff, Int32.le_iff_toInt_le, Int32.le_iff_toInt_le,
    Int32.toInt_ofNat_of_lt hx]
  show (48 : Int) ≤ _ ∧ _ ≤ (55 : Int) ↔ _
  omega

/-- **How a character begins in a set:** with a backslash, or it is written as one sign that means nothing there. -/
theorem exists_form {c : Character} (h : IsScalar c.value) :
    ∃ x t, c.form true = .char x :: t ∧ (x ∈ setMeta → x = '\\') ∧ (x ≠ '\\' → t = []) ∧
      isOctal (.char x) = isOctalDigit c ∧ (x = '[' → c = .plain 91) := by
  cases c with
  | plain n =>
    have hform : (Character.plain n).form true = escapeChar setMeta (Glyph.ofCode n).read := rfl
    have hn : Int32.ofNat (Glyph.ofCode n).read.toNat = n := toNat_read_ofCode h
    have hoctal : isOctal (.char (Glyph.ofCode n).read) = isOctalDigit (.plain n) := by
      rw [← isOctalDigit_ofNat, hn]
    unfold escapeChar at hform
    split at hform
    · next hmem =>
      have hsign : ∀ x ∈ setMeta, isOctal (.char x) = false := all_iff_forall_prop.1 (by decide)
      refine ⟨'\\', _, hform, fun _ => rfl, fun hne => absurd rfl hne, ?_, fun heq => absurd heq (by decide)⟩
      rw [← hoctal, hsign _ hmem]
      rfl
    · next hmem =>
      exact ⟨_, _, hform, fun hx => absurd hx hmem, fun _ => rfl, hoctal,
        fun heq => congrArg Character.plain (eq_of_read_ofCode heq)⟩
  | null | bell | backspace | formFeed | newLine | carriageReturn | tab | verticalTab
  | controlLetter | hexCode | octalCode | unicodeCode =>
    exact ⟨'\\', _, rfl, fun _ => rfl, fun hne => absurd rfl hne, rfl, fun heq => absurd heq (by decide)⟩

variable {limit : Nat}

theorem sign?_of_ne (h : c ≠ '\\') (t : Text) : sign? limit (.char c :: t) = some (.char (Int32.ofNat c.toNat), t) := by
  unfold sign?
  split
  · next heq => exact absurd (Glyph.char.inj (List.cons.inj heq).1) h
  · next heq => cases heq; rfl
  · next hne => exact absurd rfl (hne c t)

/-- What is escaped beyond the letters: an octal code, or a sign that stands for itself. -/
theorem escape?_of_not_mem (h : c ∉ ['p', 'P', 'c', 'x', 'u']) (hletter : letter? c = none) (t : Text) :
    escape? limit (.char c :: t) =
      if isOctal (.char c) then octal? limit (.char c :: t)
      else if isWordCharacter c then none
      else some (.char (Int32.ofNat c.toNat), t) := by
  rw [escape?, hletter]
  all_goals
    rintro rfl
    exact h (by decide)

/-- An escaped sign stands for itself. -/
theorem escape?_of_mem (h : c ∈ literalMeta ∨ c ∈ setMeta) (t : Text) :
    escape? limit (.char c :: t) = some (.char (Int32.ofNat c.toNat), t) := by
  have hsign : ∀ c ∈ literalMeta ++ setMeta, letter? c = none ∧ isOctal (.char c) = false ∧
      isWordCharacter c = false ∧ c ∉ ['p', 'P', 'c', 'x', 'u'] := all_iff_forall_prop.1 (by decide +kernel)
  obtain ⟨hletter, hoctal, hword, hnot⟩ := hsign c (mem_append.2 h)
  rw [escape?_of_not_mem hnot hletter, hoctal, hword]
  rfl

/-- A hexadecimal code is read as its number. -/
theorem code?_ofNatBase (hwidth : 0 < width) (h : n < 16 ^ width) (rest : Text) :
    code? width (Text.ofNatBase 16 width n ++ rest) = some (.char (Int32.ofNat n), rest) := by
  have hlength := length_ofNatBase (by decide) hwidth h
  rw [code?, if_pos (by rw [length_append]; omega), take_left' hlength, drop_left' hlength,
    ofDigits?_ofNatBase (by decide) (by decide)]
  rfl

/-- An octal code is read as its number below the limit. -/
theorem octal?_ofNatBase (h : n < 512) (rest : Text) :
    octal? limit (Text.ofNatBase 8 3 n ++ rest) = some (.char (Int32.ofNat (n % limit)), rest) := by
  have hlength : (Text.ofNatBase 8 3 n).length = 3 := length_ofNatBase (by decide) (by decide) h
  have hdigits : ((Text.ofNatBase 8 3 n ++ rest).take 3).takeWhile isOctal = Text.ofNatBase 8 3 n := by
    rw [take_left' hlength]
    exact takeWhile_eq_self_iff.2 fun _ => isOctal_of_mem_ofNatBase
  simp only [octal?, hdigits, drop_left' rfl, ofDigits?_ofNatBase (by decide : 1 < 8) (by decide)]
  rfl

/-- **`\0` takes the octal digits that follow it,** up to two. -/
theorem sign?_null (limit : Nat) (rest : Text) : ∃ n, sign? limit (Character.null.form true ++ rest) =
      some (.char n, rest.drop ((rest.take 2).takeWhile isOctal).length) := by
  have hdigits : ((.char '0' :: rest : Text).take 3).takeWhile isOctal =
      .char '0' :: (rest.take 2).takeWhile isOctal := rfl
  obtain ⟨n, hn⟩ := exists_ofDigits? (t := .char '0' :: (rest.take 2).takeWhile isOctal)
    (forall_mem_cons.2 ⟨rfl, fun _ => mem_takeWhile_imp⟩)
  refine ⟨Int32.ofNat (n % limit), ?_⟩
  show octal? limit (.char '0' :: rest) = _
  simp only [octal?, hdigits, hn, length_cons, drop_succ_cons]
  rfl

theorem escape?_of_isOctal (h : isOctal g = true) (t : Text) : escape? limit (g :: t) = octal? limit (g :: t) := by
  cases g with
  | stray => cases h
  | char c =>
    have hletter : ∀ n < 56, 48 ≤ n → letter? (Char.ofNat n) = none ∧ Char.ofNat n ∉ ['p', 'P', 'c', 'x', 'u'] := by
      decide
    obtain ⟨hlow, hhigh⟩ := isOctal_iff.1 h
    obtain ⟨hletter, hnot⟩ := hletter c.toNat (by omega) hlow
    rw [Char.ofNat_toNat] at hletter hnot
    rw [escape?_of_not_mem hnot hletter, if_pos h]

/-- **A character is read as itself,** unless octal digits follow `\0`. -/
theorem sign?_form {c : Character} (h : IsScalar c.value) {rest : Text}
    (hrest : c = .null → ∀ g ∈ rest.head?, isOctal g = false) :
    sign? limit (c.form true ++ rest) = some (.char (number limit c), rest) := by
  cases c with
  | plain n =>
    have hn : Int32.ofNat (Glyph.ofCode n).read.toNat = n := toNat_read_ofCode h
    show sign? limit (escapeChar setMeta (Glyph.ofCode n).read ++ rest) = some (.char n, rest)
    generalize (Glyph.ofCode n).read = x at hn
    subst hn
    unfold escapeChar
    split
    · next hmem => exact escape?_of_mem (.inr hmem) rest
    · next hmem =>
      refine sign?_of_ne ?_ rest
      rintro rfl
      exact hmem (by decide)
  | null =>
    have hdigits : ((.char '0' :: rest : Text).take 3).takeWhile isOctal = [.char '0'] := by
      cases rest with
      | nil => rfl
      | cons g rest =>
        have hg := hrest rfl g rfl
        show Glyph.char '0' :: ((g :: rest).take 2).takeWhile isOctal = _
        rw [take_succ_cons, takeWhile_cons_of_neg (by rw [hg]; decide)]
    show octal? limit (.char '0' :: rest) = some (.char (Int32.ofNat 0), rest)
    simp only [octal?, hdigits]
    rw [← Nat.zero_mod limit]
    rfl
  | bell | backspace | formFeed | newLine | carriageReturn | tab | verticalTab => rfl
  | controlLetter n =>
    have hletter : ∀ n : Fin 26, ('@' ≤ (Char.ofNat (n + 65)).toUpper ∧ (Char.ofNat (n + 65)).toUpper ≤ '_') ∧
        (Char.ofNat (n + 65)).toUpper.toNat - 64 = n + 1 := by decide
    obtain ⟨hbounds, hvalue⟩ := hletter n
    show control? (.char (Char.ofNat (n + 65)) :: rest) = _
    rw [control?, if_pos hbounds, hvalue]
    rfl
  | hexCode n | unicodeCode n => exact code?_ofNatBase (by decide) (Nat.lt_of_lt_of_le n.toNat_lt (by decide)) rest
  | octalCode n =>
    obtain ⟨g, t, hcons⟩ := exists_cons_of_ne_nil (ofNatBase_ne_nil 8 3 n)
    have hg : isOctal g = true := isOctal_of_mem_ofNatBase (hcons ▸ mem_cons_self)
    show escape? limit (Text.ofNatBase 8 3 n ++ rest) = some (.char (Int32.ofNat (n % limit)), rest)
    rw [hcons, cons_append, escape?_of_isOctal hg, ← cons_append, ← hcons, octal?_ofNatBase n.isLt]

/-! ### Classes -/

/-- The class without a name that is not written. -/
def plainClass (c : CharClass) : CharClass :=
  match c.kind with
  | .category | .notCategory => c
  | kind => ⟨kind, []⟩

/-- The class is one of the eight, and the name of a category has passed its check. -/
structure IsSoundClass (c : CharClass) : Prop where
  kind : ∀ code, c.kind ≠ .undeclared code
  name : c.kind = .category ∨ c.kind = .notCategory → checkCategory c.name = .ok ()

theorem category?_append {kind : ClassKind} {name : Text} (h : checkCategory name = .ok ()) (rest : Text) :
    category? kind ("\x7b" ++ name ++ "\x7d" ++ rest) = some (.charClass ⟨kind, name⟩, rest) := by
  have hclose : .char '\x7d' ∉ name := not_mem_of_forall (isCategoryGlyph_of_mem h) (by decide)
  have hcut : Text.cut (.char '\x7d') (name ++ "\x7d" ++ rest) = (name, some rest) := by
    rw [append_assoc]
    exact cut_append hclose rest
  show (match Text.cut (.char '\x7d') (name ++ "\x7d" ++ rest) with
    | (name, some rest) => some (Sign.charClass ⟨kind, name⟩, rest)
    | (_, none) => none) = _
  rw [hcut]

/-- **A class is read as itself.** -/
theorem sign?_class {c : CharClass} (h : IsSoundClass c) (rest : Text) :
    sign? limit (c.form ++ rest) = some (.charClass (plainClass c), rest) := by
  obtain ⟨kind, name⟩ := c
  cases kind with
  | undeclared code => exact absurd rfl (h.kind code)
  | word | notWord | digit | notDigit | space | notSpace => rfl
  | category => exact category?_append (h.name (.inl rfl)) rest
  | notCategory => exact category?_append (h.name (.inr rfl)) rest

end RegexBuilder.SetText
