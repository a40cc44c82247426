/-
# Laid out symbols

A description is written by putting blanks and comments between its symbols (`layOut`). The lexer gives back one
token for each symbol (`tokens_layOut`) if every symbol can be written.
-/

import Mathlib.Data.Bool.AllAny
import Mathlib.Data.List.TakeWhile
import RegexBuilder.Proofs.Quoting
import RegexBuilder.Proofs.Symbols

namespace RegexBuilder.Description

open List Option

/-! ### Writing symbols -/

/-- Blanks, and comments up to the end of their line, in any order. -/
inductive IsMix : Text → Prop where
  | nil : IsMix []
  | blank {g : Glyph} {t : Text} (hg : isSpace g = true) (ht : IsMix t) : IsMix (g :: t)
  | comment {body t : Text} (hbody : ∀ g ∈ body, g ≠ .char '\n') (ht : IsMix t) :
    IsMix (.char '/' :: .char '/' :: (body ++ Glyph.char '\n' :: t))

/-- The text is a token of its own: an identifier or a mark. -/
def IsWordText (w : Text) : Prop := isIdentifier w = true ∨ ∃ g, w = [g] ∧ isPunct g = true

instance (w : Text) : Decidable (IsWordText w) :=
  decidable_of_iff (isIdentifier w = true ∨ w.length = 1 ∧ w.all isPunct = true) <| or_congr_right <| by
    rw [length_eq_one_iff, ← exists_and_right]
    refine exists_congr fun g => and_congr_right ?_
    rintro rfl
    simp

/-- How the symbol is written. -/
def Symbol.text : Symbol → Text
  | string value => value.quoted
  | int n => Text.ofNat n
  | ident name => name
  | word spelling => spelling

/-- The symbol can be written so that it is read back. -/
def Symbol.IsWritable : Symbol → Prop
  | string value => value.isValid = true
  | int n => n < 0x8000000000000000
  | ident name => isIdentifier name = true
  | word spelling => IsWordText spelling

/-- The symbols, each with what stands behind it, after `lead`. -/
def layOut (lead : Text) (parts : List (Symbol × Text)) : Text :=
  lead ++ parts.flatMap fun p => p.1.text ++ p.2

/-- Between the symbols stand blanks and comments, at least one between two symbols. -/
structure IsLayout (lead : Text) (parts : List (Symbol × Text)) : Prop where
  lead : IsMix lead
  gaps : ∀ p ∈ parts, IsMix p.2
  apart : ∀ p ∈ parts.dropLast, p.2 ≠ []

/-! ### Integers -/

variable {base m n steps : Nat} {t lexeme rest lead : Text} {g : Glyph} {kind : TokenKind} {pos gap : Position}
  {ss : List Symbol} {parts : List (Symbol × Text)}

/-- A number does not get smaller with more digits. -/
theorem le_of_foldlM_addDigit (hbase : 0 < base) (h : t.foldlM (Text.addDigit base) m = some n) : m ≤ n := by
  induction t generalizing m with
  | nil => exact Nat.le_of_eq (Option.some.inj h)
  | cons g t ih =>
    rw [foldlM_cons] at h
    obtain ⟨k, hk, h⟩ := bind_eq_some_iff.1 h
    refine Nat.le_trans ?_ (ih h)
    cases g with
    | stray => cases hk
    | char =>
      obtain ⟨d, -, hk⟩ := bind_eq_some_iff.1 hk
      split at hk
      · cases hk
        exact Nat.le_trans (Nat.le_mul_of_pos_right m hbase) (Nat.le_add_right _ _)
      · cases hk

/-- Digits of a number that is not too large are read as an integer. -/
theorem foldlM_addIntegerDigit (hbase : 0 < base) (h : t.foldlM (Text.addDigit base) m = some n)
    (hn : n < 0x10000000000000000) : t.foldlM (addIntegerDigit base) m = .ok n := by
  induction t generalizing m with
  | nil => exact congrArg Except.ok (Option.some.inj h)
  | cons g t ih =>
    rw [foldlM_cons] at h ⊢
    obtain ⟨k, hk, h⟩ := bind_eq_some_iff.1 h
    have hle := le_of_foldlM_addDigit hbase h
    have hstep : addIntegerDigit base m g = .ok k := by
      rw [addIntegerDigit, hk]
      exact if_pos (by omega)
    rw [hstep]
    exact ih h

/-- Only the number 0 begins with the digit 0. -/
theorem eq_zero_of_toDigits {rest : List Char} (h : Nat.toDigits 10 n = '0' :: rest) : n = 0 := by
  induction n using Nat.strongRecOn generalizing rest with
  | _ n ih =>
    rw [Nat.toDigits_eq_if (by decide)] at h
    split at h
    · next hn =>
      have hdigits : ∀ d < 10, [Nat.digitChar d] = '0' :: [] → d = 0 := by decide
      obtain rfl : rest = [] := (List.cons.inj h).2.symm
      exact hdigits n hn h
    · next hn =>
      obtain ⟨c, more, hmore⟩ := exists_cons_of_ne_nil (Nat.toDigits_ne_nil (b := 10) (n := n / 10))
      rw [hmore, cons_append] at h
      have hquotient := ih (n / 10) (by omega) (hmore.trans (congrArg (· :: more) (List.cons.inj h).1))
      omega

/-- **An integer is read from its digits.** -/
theorem integerValue_ofNat (hn : n < 0x8000000000000000) : integerValue (Text.ofNat n) = .ok n := by
  have hdigits : (Text.ofNat n).foldlM (Text.addDigit 10) 0 = some n :=
    Text.ofDigits?_toDigits (by decide) (by decide) n
  have hfold := foldlM_addIntegerDigit (by decide) hdigits (by omega)
  unfold integerValue
  split
  · next rest hrest =>
    -- A leading zero would make it octal.
    obtain ⟨c, more, hmore, hc, -⟩ := map_eq_cons_iff.1 hrest
    obtain rfl := Glyph.char.inj hc
    obtain rfl := eq_zero_of_toDigits hmore
    cases hrest
    rfl
  · rw [hfold]
    exact if_pos hn

/-! ### Lexemes -/

theorem eq_append_of_stringRest? {p : Text × Text} (h : stringRest? t = some p) : t = p.1 ++ p.2 := by
  fun_induction stringRest? t generalizing p with
  | case1 | case3 | case4 => cases h
  | case2 =>
    cases h
    rfl
  | case5 g rest hg ih | case6 g rest _ _ _ ih =>
    obtain ⟨q, hq, rfl⟩ := map_eq_some_iff.1 h
    rw [ih hq]
    rfl

theorem isIdentRest_of_isIdentStart (h : isIdentStart g = true) : isIdentRest g = true := by
  cases g with
  | stray => cases h
  | char c =>
    have h : (c.isAlpha || c = '_') = true := h
    show (c.isAlpha || c.isDigit || c = '_') = true
    rw [Bool.or_right_comm, h, Bool.true_or]

theorem isDigit_of_isIdentStart {c : Char} (h : isIdentStart (.char c) = true) : c.isDigit = false := by
  have h : (c.isAlpha || c = '_') = true := h
  rw [Bool.or_eq_true, decide_eq_true_eq] at h
  rcases h with h | rfl
  · rw [Bool.eq_false_iff]
    intro hdigit
    have hletter := isAlpha_iff.1 h
    simp only [Char.isDigit, ge_iff_le, Bool.and_eq_true, decide_eq_true_eq, UInt32.le_iff_toNat_le,
      Char.reduceVal, UInt32.reduceToNat] at hdigit
    have hval : c.toNat = c.val.toNat := rfl
    omega
  · decide

/-- What a lexeme is depends on its first glyph. -/
theorem lexeme?_cons (g : Glyph) (rest : Text) : lexeme? (g :: rest) =
    if g = .char '/' then
      if rest.head? = some (.char '/') then some (none, spanGlyphs (· ≠ .char '\n') (g :: rest))
      else none
    else if g = .char '"' then
      (stringRest? rest).map fun p => (some .string, g :: p.1, p.2)
    else if g.isDigit then some (some .int, spanGlyphs Glyph.isDigit (g :: rest))
    else if isIdentStart g then some (some .ident, spanGlyphs isIdentRest (g :: rest))
    else if isPunct g then some (some .punct, [g], rest)
    else if isSpace g then some (none, spanGlyphs isSpace (g :: rest))
    else none := rfl

/-- A lexeme is the beginning of the text, and it is not empty. -/
theorem eq_append_of_lexeme? {kind : Option TokenKind} (h : lexeme? t = some (kind, lexeme, rest)) :
    t = lexeme ++ rest ∧ lexeme ≠ [] := by
  have hspan : ∀ {k : Option TokenKind} {p : Glyph → Bool} {g : Glyph} {u : Text}, p g = true →
      some (k, spanGlyphs p (g :: u)) = some (kind, lexeme, rest) →
      g :: u = lexeme ++ rest ∧ lexeme ≠ [] := by
    intro k p g u hg hspan
    cases hspan
    rw [takeWhile_append_dropWhile, takeWhile_cons_of_pos hg]
    exact ⟨rfl, cons_ne_nil _ _⟩
  cases t with
  | nil => cases h
  | cons =>
    rw [lexeme?_cons] at h
    split_ifs at h with hslash _ hquote hdigit hident hpunct hspace
    · exact hspan (by rw [hslash]; decide) h
    · obtain ⟨p, hp, h⟩ := Option.map_eq_some_iff.1 h
      cases h
      rw [eq_append_of_stringRest? hp]
      exact ⟨rfl, cons_ne_nil _ _⟩
    · exact hspan hdigit h
    · exact hspan (isIdentRest_of_isIdentStart hident) h
    · cases h
      exact ⟨rfl, cons_ne_nil _ _⟩
    · exact hspan hspace h

theorem length_lt_of_lexeme? {kind : Option TokenKind} (h : lexeme? t = some (kind, lexeme, rest)) :
    rest.length < t.length := by
  obtain ⟨rfl, hne⟩ := eq_append_of_lexeme? h
  have := length_pos_iff.2 hne
  rw [length_append]
  omega

/-! ### Tokens of a text -/

/-- What is known of the value of a token of the kind, which is not the end. -/
def TokenKind.Holds : TokenKind → Text → Prop
  | .string, value => value.isValid = true
  | .int, value => ∀ g ∈ value, g.isDigit = true
  | .ident, value => isIdentifier value = true
  | .punct, value => ∃ g, value = [g] ∧ isPunct g = true
  | .eof, _ => False

/-- The token comes from a lexeme. -/
def Token.IsLexed (t : Token) : Prop := t.kind.Holds t.value

/-- A lexeme is of its kind, strings apart. -/
theorem holds_of_lexeme? (hkind : kind ≠ .string) (h : lexeme? t = some (some kind, lexeme, rest)) :
    kind.Holds lexeme := by
  cases t with
  | nil => cases h
  | cons g u =>
    rw [lexeme?_cons] at h
    split_ifs at h with _ _ _ hdigit hident hpunct
    · cases h
    · obtain ⟨p, -, hp⟩ := Option.map_eq_some_iff.1 h
      cases hp
      exact absurd rfl hkind
    · cases h
      exact fun g hg => mem_takeWhile_imp hg
    · cases h
      rw [takeWhile_cons_of_pos (isIdentRest_of_isIdentStart hident)]
      exact Bool.and_eq_true_iff.2 ⟨hident, all_eq_true.2 fun g hg => mem_takeWhile_imp hg⟩
    · cases h
      exact ⟨g, rfl, hpunct⟩
    · cases h

theorem isLexed_ofLexeme {token : Token} (hlexeme : lexeme? t = some (some kind, lexeme, rest))
    (h : Token.ofLexeme kind lexeme pos gap = .ok token) : token.IsLexed := by
  by_cases hkind : kind = .string
  · subst hkind
    simp only [Token.ofLexeme] at h
    split at h
    · next value hvalue =>
      cases h
      exact isValid_of_unescapeAfter hvalue
    · cases h
  · have hholds := holds_of_lexeme? hkind hlexeme
    cases kind with
    | string => exact absurd rfl hkind
    | int | ident | punct | eof =>
      cases h
      exact hholds

/-- The end is the last of the tokens. -/
theorem isLexed_of_tokensFrom {ts : List Token} (h : tokensFrom steps pos gap t = .ok ts) :
    ∃ us e, ts = us ++ [e] ∧ e.kind = .eof ∧ ∀ u ∈ us, u.IsLexed := by
  fun_induction tokensFrom steps pos gap t generalizing ts with
  | case1 =>
    cases h
    exact ⟨[], _, rfl, rfl, nofun⟩
  | case2 | case3 => cases h
  | case4 steps pos gap t _ lexeme rest _ ih => exact ih h
  | case5 steps pos gap t _ kind lexeme rest hlexeme ih =>
    obtain ⟨token, htoken, h⟩ := bind_eq_ok.1 h
    obtain ⟨tokens, htokens, h⟩ := bind_eq_ok.1 h
    cases h
    obtain ⟨us, e, rfl, he, hus⟩ := ih htokens
    exact ⟨token :: us, e, rfl, he, forall_mem_cons.2 ⟨isLexed_ofLexeme hlexeme htoken, hus⟩⟩

theorem tokensFrom_skip (h : lexeme? t = some (none, lexeme, rest)) (steps : Nat) (pos gap : Position) :
    tokensFrom (steps + 1) pos gap t = tokensFrom steps (pos.advance lexeme) gap rest := by
  cases t with
  | nil => cases h
  | cons =>
    rw [tokensFrom, h]
    nofun

theorem tokensFrom_token (h : lexeme? t = some (some kind, lexeme, rest)) (steps : Nat) (pos gap : Position) :
    tokensFrom (steps + 1) pos gap t = (do
      let token ← Token.ofLexeme kind lexeme pos gap
      let tokens ← tokensFrom steps (pos.advance lexeme) (pos.advance lexeme) rest
      return token :: tokens) := by
  cases t with
  | nil => cases h
  | cons =>
    rw [tokensFrom, h]
    nofun

/-- The text consists of the symbols, lexeme by lexeme. -/
inductive Lexes : Text → List Symbol → Prop where
  | nil : Lexes [] []
  | skip {t lexeme rest : Text} {ss : List Symbol} (h : lexeme? t = some (none, lexeme, rest))
    (hrest : Lexes rest ss) : Lexes t ss
  | token {t lexeme rest : Text} {kind : TokenKind} {s : Symbol} {ss : List Symbol}
    (h : lexeme? t = some (some kind, lexeme, rest))
    (htoken : ∀ pos gap, ∃ token, Token.ofLexeme kind lexeme pos gap = .ok token ∧
      token.Writes IsWordKind s)
    (hrest : Lexes rest ss) : Lexes t (s :: ss)

/-- **The tokens of a text are those of its symbols.** -/
theorem Lexes.tokensFrom_eq (h : Lexes t ss) (hsteps : t.length ≤ steps) (pos gap : Position) :
    ∃ ts e, tokensFrom steps pos gap t = .ok (ts ++ [e]) ∧ e.kind = .eof ∧
      Forall₂ (Token.Writes IsWordKind) ts ss := by
  induction h generalizing steps pos gap with
  | nil =>
    refine ⟨[], ⟨.eof, [], pos, gap⟩, ?_, rfl, .nil⟩
    cases steps <;> rfl
  | skip h hrest ih =>
    have hlength := length_lt_of_lexeme? h
    obtain ⟨steps, rfl⟩ : ∃ n, steps = n + 1 := ⟨steps - 1, by omega⟩
    obtain ⟨ts, e, hts, he, hwrites⟩ := ih (Nat.le_of_lt_succ (Nat.lt_of_lt_of_le hlength hsteps)) (pos.advance _) gap
    exact ⟨ts, e, (tokensFrom_skip h steps pos gap).trans hts, he, hwrites⟩
  | token h htoken hrest ih =>
    have hlength := length_lt_of_lexeme? h
    obtain ⟨steps, rfl⟩ : ∃ n, steps = n + 1 := ⟨steps - 1, by omega⟩
    obtain ⟨token, hof, hwrite⟩ := htoken pos gap
    obtain ⟨ts, e, hts, he, hwrites⟩ := ih (Nat.le_of_lt_succ (Nat.lt_of_lt_of_le hlength hsteps))
      (pos.advance _) (pos.advance _)
    refine ⟨token :: ts, e, ?_, he, .cons hwrite hwrites⟩
    rw [tokensFrom_token h, hof]
    exact bind_eq_ok.2 ⟨token, rfl, bind_eq_ok.2 ⟨ts ++ [e], hts, rfl⟩⟩

/-! ### Blanks, comments and symbols -/

/-- What may follow a word or an integer. -/
def EndsWord (t : Text) : Prop := ∀ g ∈ t.head?, isIdentRest g = false ∧ g.isDigit = false

theorem spanGlyphs_append {p : Glyph → Bool} {l : Text} (hl : ∀ g ∈ l, p g = true)
    (hrest : ∀ g ∈ rest.head?, p g = false) : spanGlyphs p (l ++ rest) = (l, rest) := by
  unfold spanGlyphs
  rw [takeWhile_append_of_pos hl, dropWhile_append_of_pos hl]
  cases rest with
  | nil => simp
  | cons g rest =>
    have hg : ¬ p g = true := Bool.eq_false_iff.1 (hrest g rfl)
    rw [takeWhile_cons_of_neg hg, dropWhile_cons_of_neg hg, List.append_nil]

theorem lexeme?_of_isSpace (h : isSpace g = true) (rest : Text) :
    lexeme? (g :: rest) = some (none, spanGlyphs isSpace (g :: rest)) := by
  cases g with
  | stray => cases h
  | char c =>
    have hall : ∀ c ∈ ['\t', '\n', '\x0c', '\r', ' '], Glyph.char c ≠ .char '/' ∧
        Glyph.char c ≠ .char '"' ∧ (Glyph.char c).isDigit = false ∧
        isIdentStart (.char c) = false ∧ isPunct (.char c) = false := all_iff_forall_prop.1 (by decide)
    obtain ⟨hslash, hquote, hdigit, hident, hpunct⟩ := hall c (of_decide_eq_true h)
    rw [lexeme?_cons, if_neg hslash, if_neg hquote, hdigit, hident, hpunct, h]
    rfl

/-- Marks are not in the other classes of glyphs. -/
theorem classes_of_isPunct (h : isPunct g = true) : g ≠ .char '/' ∧ g ≠ .char '"' ∧
    g.isDigit = false ∧ isIdentStart g = false := by
  cases g with
  | stray => cases h
  | char c =>
    have hall : ∀ c ∈ "-=|*+?()\x7b\x7d[],;<>^$".toList, Glyph.char c ≠ .char '/' ∧
        Glyph.char c ≠ .char '"' ∧ (Glyph.char c).isDigit = false ∧
        isIdentStart (.char c) = false := all_iff_forall_prop.1 (by decide)
    exact hall c (of_decide_eq_true h)

theorem lexeme?_of_isPunct (h : isPunct g = true) (rest : Text) :
    lexeme? (g :: rest) = some (some .punct, [g], rest) := by
  obtain ⟨hslash, hquote, hdigit, hident⟩ := classes_of_isPunct h
  rw [lexeme?_cons, if_neg hslash, if_neg hquote, hdigit, hident, h]
  rfl

theorem wordKind_of_isPunct (h : isPunct g = true) : wordKind [g] = .punct := by
  obtain ⟨-, -, -, hident⟩ := classes_of_isPunct h
  rw [wordKind, isIdentifier, hident]
  rfl

/-- An identifier is a lexeme up to what ends a word. -/
theorem lexeme?_identifier {x : Text} (hx : isIdentifier x = true) (hrest : EndsWord rest) :
    lexeme? (x ++ rest) = some (some .ident, x, rest) := by
  cases x with
  | nil => cases hx
  | cons g x =>
    obtain ⟨hg, hx⟩ := Bool.and_eq_true_iff.1 hx
    have hspan := spanGlyphs_append (l := g :: x)
      (forall_mem_cons.2 ⟨isIdentRest_of_isIdentStart hg, all_eq_true.1 hx⟩) fun g hg => (hrest g hg).1
    cases g with
    | stray => cases hg
    | char c =>
      have hslash : Glyph.char c ≠ .char '/' := by rintro ⟨⟩; revert hg; decide
      have hquote : Glyph.char c ≠ .char '"' := by rintro ⟨⟩; revert hg; decide
      have hdigit : (Glyph.char c).isDigit = false := isDigit_of_isIdentStart hg
      rw [cons_append, lexeme?_cons, if_neg hslash, if_neg hquote, hdigit, hg]
      exact congrArg (fun p => some (some TokenKind.ident, p)) hspan

/-- The digits of a number are a lexeme up to what ends a word. -/
theorem lexeme?_ofNat (n : Nat) (hrest : EndsWord rest) :
    lexeme? (Text.ofNat n ++ rest) = some (some .int, Text.ofNat n, rest) := by
  have hspan := spanGlyphs_append (fun g (hg : g ∈ Text.ofNat n) => Text.isDigit_of_mem_ofNat hg)
    fun g hg => (hrest g hg).2
  obtain ⟨g, t, ht⟩ := exists_cons_of_ne_nil (Text.ofNat_ne_nil n)
  have hg : g.isDigit = true := Text.isDigit_of_mem_ofNat (ht ▸ mem_cons_self)
  have hslash : g ≠ .char '/' := by rintro rfl; revert hg; decide
  have hquote : g ≠ .char '"' := by rintro rfl; revert hg; decide
  rw [ht] at hspan ⊢
  rw [cons_append, lexeme?_cons, if_neg hslash, if_neg hquote, if_pos hg]
  exact congrArg (fun p => some (some TokenKind.int, p)) hspan

theorem lexeme?_quoted {v : Text} (hv : v.isValid = true) (rest : Text) :
    lexeme? (v.quoted ++ rest) = some (some .string, v.quoted, rest) := by
  obtain ⟨body, hquoted, hbody⟩ := stringRest?_quoted hv rest
  rw [hquoted, cons_append, lexeme?_cons, if_neg (by decide), if_pos rfl, hbody]
  rfl

/-- A comment is a lexeme up to the end of its line. -/
theorem lexeme?_comment {body : Text} (hbody : ∀ g ∈ body, g ≠ .char '\n') (rest : Text) :
    lexeme? (.char '/' :: .char '/' :: (body ++ Glyph.char '\n' :: rest)) =
      some (none, .char '/' :: .char '/' :: body, .char '\n' :: rest) := by
  have hspan : spanGlyphs (· ≠ .char '\n') ((.char '/' :: .char '/' :: body) ++ Glyph.char '\n' :: rest) =
      (.char '/' :: .char '/' :: body, .char '\n' :: rest) := by
    refine spanGlyphs_append ?_ ?_
    · simpa using hbody
    · simp
  rw [lexeme?_cons, if_pos rfl, if_pos head?_cons]
  exact congrArg (fun p => some (none, p)) hspan

theorem Lexes.dropWhile (h : Lexes t ss) : Lexes (t.dropWhile isSpace) ss := by
  cases t with
  | nil => exact h
  | cons g t =>
    cases hg : isSpace g with
    | false => rwa [dropWhile_cons_of_neg (Bool.eq_false_iff.1 hg)]
    | true =>
      have hlexeme := lexeme?_of_isSpace hg t
      cases h with
      | skip h hrest =>
        cases hlexeme.symm.trans h
        exact hrest
      | token h => cases hlexeme.symm.trans h

theorem Lexes.blank (hg : isSpace g = true) (h : Lexes t ss) : Lexes (g :: t) ss := by
  refine .skip (lexeme?_of_isSpace hg t) ?_
  rw [dropWhile_cons_of_pos hg]
  exact h.dropWhile

/-- **Blanks and comments in front change nothing.** -/
theorem Lexes.mix {gap : Text} (hgap : IsMix gap) (h : Lexes t ss) : Lexes (gap ++ t) ss := by
  induction hgap with
  | nil => exact h
  | blank hg _ ih => exact ih.blank hg
  | comment hbody _ ih =>
    simp only [cons_append, append_assoc]
    exact .skip (lexeme?_comment hbody _) (ih.blank rfl)

/-- **A symbol is read,** where the text that follows it ends it. -/
theorem Lexes.symbol {s : Symbol} (hs : s.IsWritable) (ht : EndsWord t) (h : Lexes t ss) :
    Lexes (s.text ++ t) (s :: ss) := by
  cases s with
  | string value =>
    refine .token (lexeme?_quoted hs t) (fun pos gap => ⟨⟨.string, value, pos, gap⟩, ?_, rfl, rfl⟩) h
    simp only [Token.ofLexeme, unquote_quoted hs]
  | int n => exact .token (lexeme?_ofNat n ht) (fun pos gap => ⟨_, rfl, rfl, integerValue_ofNat hs⟩) h
  | ident => exact .token (lexeme?_identifier hs ht) (fun pos gap => ⟨_, rfl, rfl, rfl⟩) h
  | word =>
    rcases hs with hs | ⟨g, rfl, hg⟩
    · exact .token (lexeme?_identifier hs ht) (fun pos gap => ⟨_, rfl, (if_pos hs).symm, rfl⟩) h
    · exact .token (lexeme?_of_isPunct hg t) (fun pos gap => ⟨_, rfl, (wordKind_of_isPunct hg).symm, rfl⟩) h

theorem IsMix.endsWord {gap : Text} (h : IsMix gap) (hne : gap ≠ []) (t : Text) : EndsWord (gap ++ t) := by
  cases h with
  | nil => exact absurd rfl hne
  | @blank g _ hg =>
    rintro _ ⟨⟩
    cases g with
    | stray => cases hg
    | char c =>
      have hall : ∀ c ∈ ['\t', '\n', '\x0c', '\r', ' '], isIdentRest (.char c) = false ∧
          (Glyph.char c).isDigit = false := all_iff_forall_prop.1 (by decide)
      exact hall c (of_decide_eq_true hg)
  | comment =>
    rintro _ ⟨⟩
    decide

/-- **Laid out symbols are read.** -/
theorem lexes_layOut (h : IsLayout lead parts) (hparts : ∀ p ∈ parts, p.1.IsWritable) :
    Lexes (layOut lead parts) (parts.map Prod.fst) := by
  refine .mix h.lead ?_
  have hgaps := h.gaps
  have hapart := h.apart
  clear h
  induction parts with
  | nil => exact .nil
  | cons p parts ih =>
    obtain ⟨hp, hparts⟩ := forall_mem_cons.1 hparts
    obtain ⟨hgap, hgaps⟩ := forall_mem_cons.1 hgaps
    rw [flatMap_cons, append_assoc, map_cons]
    cases parts with
    | nil =>
      refine .symbol hp ?_ (.mix hgap .nil)
      by_cases hne : p.2 = []
      · rw [hne]
        exact nofun
      · exact hgap.endsWord hne _
    | cons =>
      rw [dropLast_cons_cons] at hapart
      obtain ⟨hne, hapart⟩ := forall_mem_cons.1 hapart
      exact .symbol hp (hgap.endsWord hne _) (.mix hgap (ih hparts hgaps hapart))

/-- **The lexer gives back the symbols that were laid out.** -/
theorem tokens_layOut (h : IsLayout lead parts) (hparts : ∀ p ∈ parts, p.1.IsWritable) (file : Text) :
    ∃ ts e, tokens file (layOut lead parts) = .ok (ts ++ [e]) ∧ e.kind = .eof ∧
      Forall₂ (Token.Writes IsWordKind) ts (parts.map Prod.fst) :=
  (lexes_layOut h hparts).tokensFrom_eq (Nat.le_refl _) _ _

end RegexBuilder.Description
