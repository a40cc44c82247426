/-
# Quoted strings are read back

A text of characters, between quotation marks, is taken by the lexer as one string and stands for the
text itself (`stringRest?_quoted`, `unquote_quoted`). A stray byte is not read back: it is written as
the number of a character.
-/

import Mathlib.Algebra.Group.Nat.Defs
import RegexBuilder.Description.Token
import RegexBuilder.Proofs.Escape

namespace RegexBuilder

open List Text
namespace Text

/-! ### Characters and their bytes -/

/-- No byte of the text is stray. -/
def isValid (t : Text) : Bool := t.all (Glyph.isChar fun _ => true)

variable {t : Text} {n width : Nat}

/-- A text is valid if it consists of characters. -/
theorem isValid_iff : t.isValid = true ↔ ∀ g ∈ t, ∃ c, g = .char c := by
  simp only [isValid, all_eq_true]
  refine forall₂_congr fun g _ => ?_
  cases g with
  | char c => exact ⟨fun _ => ⟨c, rfl⟩, fun _ => rfl⟩
  | stray => exact ⟨nofun, nofun⟩

theorem toNat_lt (c : Char) : c.toNat < 0x110000 := by
  have hvalid : c.toNat.isValidChar := c.valid
  unfold Nat.isValidChar at hvalid
  omega

theorem scalar?_toNat {least : Nat} {c : Char} (h : least ≤ c.toNat) : scalar? least c.toNat = some c := by
  have hvalid : c.toNat.isValidChar := c.valid
  rw [scalar?, if_pos ⟨h, hvalid⟩, Char.ofNat_toNat]

theorem toNat_ofNat_byte (h : n < 256) : (UInt8.ofNat n).toNat = n := UInt8.toNat_ofNat_of_lt' h

theorem continuation?_ofNat (n : Nat) : continuation? (UInt8.ofNat (n % 64 + 128)) = some (n % 64) := by
  rw [continuation?, toNat_ofNat_byte (by omega), if_pos (by omega)]
  exact congrArg some (by omega)

/-- The bytes of a character by its number. -/
theorem utf8EncodeChar_eq (c : Char) : String.utf8EncodeChar c =
    if c.toNat ≤ 127 then [UInt8.ofNat c.toNat]
    else if c.toNat ≤ 2047 then
      [UInt8.ofNat (c.toNat / 64 % 32 + 192), UInt8.ofNat (c.toNat % 64 + 128)]
    else if c.toNat ≤ 65535 then
      [UInt8.ofNat (c.toNat / 4096 % 16 + 224), UInt8.ofNat (c.toNat / 64 % 64 + 128), UInt8.ofNat (c.toNat % 64 + 128)]
    else
      [UInt8.ofNat (c.toNat / 262144 % 8 + 240), UInt8.ofNat (c.toNat / 4096 % 64 + 128),
        UInt8.ofNat (c.toNat / 64 % 64 + 128), UInt8.ofNat (c.toNat % 64 + 128)] := rfl

/-- A character is read from its bytes. -/
theorem leadingChar?_encode (c : Char) (rest : List UInt8) :
    leadingChar? (String.utf8EncodeChar c ++ rest) = some (c, (String.utf8EncodeChar c).length) := by
  have hlt := toNat_lt c
  -- the number that the value bits of the bytes make is that of the character
  have hscalar : ∀ {least n}, n = c.toNat → least ≤ n → scalar? least n = some c := by
    rintro least _ rfl h
    exact scalar?_toNat h
  rw [utf8EncodeChar_eq]
  split
  · next h =>
    simp only [cons_append, leadingChar?, toNat_ofNat_byte (n := c.toNat) (by omega)]
    rw [if_pos (by omega), hscalar rfl (Nat.zero_le _)]
    rfl
  · split
    · next h h' =>
      simp only [cons_append, leadingChar?, continuation?_ofNat,
        toNat_ofNat_byte (n := c.toNat / 64 % 32 + 192) (by omega), Option.bind_eq_bind, Option.bind_some]
      rw [if_neg (by omega), if_pos (by omega), hscalar (by omega) (by omega)]
      rfl
    · split
      · next h h' h'' =>
        simp only [cons_append, leadingChar?, continuation?_ofNat,
          toNat_ofNat_byte (n := c.toNat / 4096 % 16 + 224) (by omega), Option.bind_eq_bind, Option.bind_some]
        rw [if_neg (by omega), if_neg (by omega), if_pos (by omega), hscalar (by omega) (by omega)]
        rfl
      · next h h' h'' =>
        simp only [cons_append, leadingChar?, continuation?_ofNat,
          toNat_ofNat_byte (n := c.toNat / 262144 % 8 + 240) (by omega), Option.bind_eq_bind, Option.bind_some]
        rw [if_neg (by omega), if_neg (by omega), if_neg (by omega), if_pos (by omega), hscalar (by omega) (by omega)]
        rfl

theorem ofBytesAfter_append (bs rest : List UInt8) : ofBytesAfter bs.length (bs ++ rest) = ofBytesAfter 0 rest := by
  induction bs with
  | nil => rfl
  | cons b bs ih => exact ih

/-- **A text of characters is as it is read from its bytes.** -/
theorem canonical_of_isValid (h : t.isValid = true) : t.canonical = t := by
  induction t with
  | nil => rfl
  | cons g t ih =>
    obtain ⟨⟨c, rfl⟩, ht⟩ := forall_mem_cons.1 (isValid_iff.1 h)
    have hrest : ofBytesAfter 0 (bytes t) = t := ih (isValid_iff.2 ht)
    show ofBytesAfter 0 (String.utf8EncodeChar c ++ bytes t) = _
    have hleading := leadingChar?_encode c (bytes t)
    obtain ⟨b, bs, hbs⟩ : ∃ b bs, String.utf8EncodeChar c = b :: bs :=
      exists_cons_of_ne_nil (by simp [utf8EncodeChar_eq]; grind)
    rw [hbs, cons_append] at hleading ⊢
    simp only [ofBytesAfter, hleading, length_cons, Nat.add_sub_cancel, ofBytesAfter_append, hrest]

/-! ### Hexadecimal digits -/

/-- A number that is not too large has digits of the given width. -/
theorem length_lowerHex (hwidth : 0 < width) (h : n < 16 ^ width) : (lowerHex width n).length = width := by
  have hlength := (Nat.length_toDigits_le_iff (by decide) hwidth).2 h
  simp only [lowerHex, padLeft, length_append, length_replicate, length_map]
  omega

/-- A number is read from its hexadecimal digits. -/
theorem ofDigits?_lowerHex (width n : Nat) : ofDigits? 16 (lowerHex width n) = some n := by
  rw [lowerHex, ofDigits?_padLeft (by decide)]
  exact ofDigits?_toDigits (by decide) (by decide) n

theorem ne_of_mem_lowerHex {g : Glyph} (h : g ∈ lowerHex width n) : g ≠ .char '"' ∧ g ≠ .char '\\' := by
  have hdigit : ∀ d < 16, Nat.digitChar d ≠ '"' ∧ Nat.digitChar d ≠ '\\' := by decide
  rcases mem_append.1 h with h | h
  · obtain rfl := eq_of_mem_replicate h
    exact ⟨by decide, by decide⟩
  · obtain ⟨c, hc, rfl⟩ := mem_map.1 h
    obtain ⟨d, hd, rfl⟩ := exists_of_mem_toDigits (by decide) hc
    exact (hdigit d hd).imp (mt Glyph.char.inj) (mt Glyph.char.inj)

end Text

namespace Description

/-! ### Strings -/

variable {g : Glyph} {l t : Text} {c x : Char} {width : Nat}

theorem stringRest?_cons (hquote : g ≠ .char '"') (hback : g ≠ .char '\\') (t : Text) :
    stringRest? (g :: t) = (stringRest? t).map fun p => (g :: p.1, p.2) := by
  conv_lhs => rw [stringRest?.eq_def]
  split <;> simp_all

theorem stringRest?_escape (h : g ≠ .char '\n') (t : Text) : stringRest? (.char '\\' :: g :: t) =
      (stringRest? t).map fun p => (.char '\\' :: g :: p.1, p.2) := by
  rw [stringRest?, if_neg h]

/-- Glyphs without a meaning are part of the string. -/
theorem stringRest?_append (h : ∀ g ∈ l, g ≠ .char '"' ∧ g ≠ .char '\\') (t : Text) :
    stringRest? (l ++ t) = (stringRest? t).map fun p => (l ++ p.1, p.2) := by
  induction l with
  | nil => simp
  | cons g l ih =>
    obtain ⟨⟨hquote, hback⟩, hl⟩ := forall_mem_cons.1 h
    rw [cons_append, stringRest?_cons hquote hback, ih hl, Option.map_map]
    rfl

theorem unescapeAfter_append (l t : Text) : unescapeAfter l.length (l ++ t) = unescapeAfter 0 t := by
  induction l with
  | nil => rfl
  | cons g l ih => rw [length_cons, cons_append, unescapeAfter, ih]

/-- What stands behind an escape. -/
theorem unescapeAfter_escape (h : escape? (l ++ t) = some (c, l.length)) :
    unescapeAfter 0 (.char '\\' :: (l ++ t)) = (unescapeAfter 0 t).map (.char c :: ·) := by
  simp only [unescapeAfter, if_true, h, Option.bind_eq_bind, Option.bind_some, unescapeAfter_append]
  cases unescapeAfter 0 t <;> rfl

theorem leadingDigits?_lowerHex {n : Nat} (hwidth : 0 < width) (h : n < 16 ^ width) (t : Text) :
    leadingDigits? 16 width (Text.lowerHex width n ++ t) = some n := by
  have hlength := length_lowerHex hwidth h
  rw [leadingDigits?, if_pos (by simp [hlength]), take_left' hlength, ofDigits?_lowerHex]

/-- The text `p` is part of a string, and there it stands for the character `c`. -/
structure IsSpelling (p : Text) (c : Char) : Prop where
  scanned : ∀ t, stringRest? (p ++ t) = (stringRest? t).map fun q => (p ++ q.1, q.2)
  meaning : ∀ t, unescapeAfter 0 (p ++ t) = (unescapeAfter 0 t).map (.char c :: ·)

/-- The hexadecimal number of a character stands for it. -/
theorem isSpelling_hex (hwidth : 0 < width) (hc : c.toNat < 16 ^ width) (hx : ∀ t, escape? (.char x :: t) =
      (leadingDigits? 16 width t).bind fun n => (Text.scalar? 0 n).bind fun c => some (c, width + 1))
    (hnewline : x ≠ '\n') : IsSpelling (.char '\\' :: .char x :: Text.lowerHex width c.toNat) c := by
  constructor
  · intro t
    rw [cons_append, cons_append, stringRest?_escape (mt Glyph.char.inj hnewline),
      stringRest?_append fun g hg => ne_of_mem_lowerHex hg, Option.map_map]
    rfl
  · intro t
    have hlength := length_lowerHex hwidth hc
    refine unescapeAfter_escape (l := .char x :: Text.lowerHex width c.toNat) ?_
    rw [cons_append, hx, leadingDigits?_lowerHex hwidth hc, Option.bind_some,
      scalar?_toNat (Nat.zero_le _), length_cons, hlength]
    rfl

/-- A backslash and a letter. -/
theorem isSpelling_escape (hx : ∀ t, escape? (.char x :: t) = some (c, 1)) (hnewline : x ≠ '\n') :
    IsSpelling [.char '\\', .char x] c :=
  ⟨stringRest?_escape (mt Glyph.char.inj hnewline), fun t => unescapeAfter_escape (l := [.char x]) (hx t)⟩

theorem isSpelling_shortEscape {e : Char} (h : Text.shortEscape? c = some e) : IsSpelling [.char '\\', .char e] c := by
  have hc : Char.ofNat c.toNat = c := Char.ofNat_toNat c
  unfold Text.shortEscape? at h
  split at h
  case h_8 => cases h
  all_goals
    next hn =>
    rw [hn] at hc
    obtain rfl := hc
    cases h
    exact isSpelling_escape (fun t => rfl) (by decide)

/-- **A character is quoted as it is read.** -/
theorem isSpelling_quoteChar (c : Char) : IsSpelling (Text.quoteChar '"' c) c := by
  unfold Text.quoteChar
  split
  · next h =>
    rcases h with rfl | rfl
    · exact isSpelling_escape (fun t => rfl) (by decide)
    · exact isSpelling_escape (fun t => rfl) (by decide)
  · next hplain =>
    obtain ⟨hquote, hback⟩ := not_or.1 hplain
    split
    · refine ⟨stringRest?_cons (mt Glyph.char.inj hquote) (mt Glyph.char.inj hback), fun t => ?_⟩
      rw [singleton_append, unescapeAfter, if_neg (mt Glyph.char.inj hback)]
      cases unescapeAfter 0 t <;> rfl
    · split
      · next e he => exact isSpelling_shortEscape he
      · split
        · exact isSpelling_hex (x := 'x') (by decide) (by omega) (fun t => rfl) (by decide)
        · split
          · exact isSpelling_hex (x := 'u') (by decide) (by omega) (fun t => rfl) (by decide)
          · have hlt : c.toNat < 16 ^ 8 := Nat.lt_trans (Text.toNat_lt c) (by decide)
            exact isSpelling_hex (x := 'U') (by decide) hlt (fun t => rfl) (by decide)

/-- What is quoted is scanned as a whole and stands for the text. -/
theorem isSpelling_body (h : t.isValid = true) (rest : Text) :
    stringRest? (t.flatMap (Text.quoteGlyph '"') ++ rest) =
        (stringRest? rest).map (fun q => (t.flatMap (Text.quoteGlyph '"') ++ q.1, q.2)) ∧
      unescapeAfter 0 (t.flatMap (Text.quoteGlyph '"') ++ rest) = (unescapeAfter 0 rest).map (t ++ ·) := by
  induction t with
  | nil => simp
  | cons g t ih =>
    obtain ⟨⟨c, rfl⟩, ht⟩ := forall_mem_cons.1 (isValid_iff.1 h)
    obtain ⟨hscanned, hmeaning⟩ := ih (isValid_iff.2 ht)
    have hc := isSpelling_quoteChar c
    rw [flatMap_cons, append_assoc]
    show stringRest? (Text.quoteChar '"' c ++ _) = _ ∧ unescapeAfter 0 (Text.quoteChar '"' c ++ _) = _
    rw [hc.scanned, hc.meaning, hscanned, hmeaning, Option.map_map, Option.map_map]
    exact ⟨by simp only [append_assoc]; rfl, rfl⟩

theorem quoted_eq (h : t.isValid = true) :
    t.quoted = .char '"' :: (t.flatMap (Text.quoteGlyph '"') ++ [Glyph.char '"']) := by
  rw [Text.quoted, Text.canonical_of_isValid h]
  rfl

/-- **The lexer takes a quoted text as one string.** -/
theorem stringRest?_quoted (h : t.isValid = true) (rest : Text) :
    ∃ body, t.quoted = .char '"' :: body ∧ stringRest? (body ++ rest) = some (body, rest) := by
  refine ⟨_, quoted_eq h, ?_⟩
  rw [append_assoc, (isSpelling_body h _).1]
  rfl

/-- **A quoted text stands for itself.** -/
theorem unquote_quoted (h : t.isValid = true) : unquote t.quoted = some t := by
  have hmeaning := (isSpelling_body h []).2
  rw [List.append_nil] at hmeaning
  rw [unquote, quoted_eq h, drop_succ_cons, drop_zero, dropLast_concat, hmeaning]
  simp [unescapeAfter]

/-- What a string stands for has no stray bytes. -/
theorem isValid_of_unescapeAfter : ∀ {skip : Nat} {t v : Text}, unescapeAfter skip t = some v →
    v.isValid = true
  | skip, [], v, h => by
    cases skip <;> cases h <;> rfl
  | skip + 1, _ :: t, v, h => isValid_of_unescapeAfter (t := t) h
  | 0, g :: t, v, h => by
    rw [unescapeAfter] at h
    split at h
    · obtain ⟨⟨c, width⟩, -, h⟩ := Option.bind_eq_some_iff.1 h
      obtain ⟨u, hu, h⟩ := Option.bind_eq_some_iff.1 h
      cases h
      exact (isValid_of_unescapeAfter hu : u.isValid = true)
    · obtain ⟨u, hu, h⟩ := Option.bind_eq_some_iff.1 h
      cases h
      exact (isValid_of_unescapeAfter hu : u.isValid = true)

end Description
end RegexBuilder
