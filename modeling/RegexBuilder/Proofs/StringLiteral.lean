/-
# Strings in generated files stand for the bytes they are made from

The reader decodes a quoted text to the very bytes of the text (`scans_quoted`): a byte that is part of no character
is written as the number of a byte, and everything else that could be misread as the number of a character. A text
is quoted as it is read from its bytes, and reading them loses nothing (`Text.bytes_canonical`).
-/

import RegexBuilder.Proofs.Quoting
import RegexBuilder.Proofs.SourceReader

namespace RegexBuilder

open List Option Text

/-! ### Bytes and what they are read as -/

namespace Text

theorem eq_ofNat_of_toNat {b : UInt8} {n : Nat} (h : n = b.toNat) : UInt8.ofNat n = b := by
  rw [h, UInt8.ofNat_toNat]

theorem continuation?_eq_some {b : UInt8} {x : Nat} (h : continuation? b = some x) : b.toNat = 128 + x ∧ x < 64 := by
  unfold continuation? at h
  split at h
  · cases h
    omega
  · cases h

theorem scalar?_eq_some {least n : Nat} {c : Char} (h : scalar? least n = some c) : least ≤ n ∧ c.toNat = n := by
  unfold scalar? at h
  split at h
  · next hn =>
    cases h
    refine ⟨hn.1, ?_⟩
    rw [Char.ofNat, dif_pos hn.2]
    rfl
  · cases h

/-- The bytes that are read as a character are its bytes. -/
theorem eq_encode_of_leadingChar? {bs : List UInt8} {c : Char} {width : Nat} (h : leadingChar? bs = some (c, width)) :
    ∃ tail, bs = String.utf8EncodeChar c ++ tail ∧ width = (String.utf8EncodeChar c).length := by
  cases bs with
  | nil => cases h
  | cons a rest =>
    simp only [leadingChar?] at h
    split at h
    · next hone =>
      obtain ⟨c, hc, h⟩ := map_eq_some_iff.1 h
      cases h
      obtain ⟨-, hn⟩ := scalar?_eq_some hc
      have ha : UInt8.ofNat c.toNat = a := eq_ofNat_of_toNat hn
      rw [utf8EncodeChar_eq, if_pos (by omega), ha]
      exact ⟨rest, rfl, rfl⟩
    split at h
    · next htwo =>
      split at h
      · next b rest =>
        obtain ⟨x, hx, h⟩ := bind_eq_some_iff.1 h
        obtain ⟨c, hc, h⟩ := bind_eq_some_iff.1 h
        cases h
        obtain ⟨hleast, hn⟩ := scalar?_eq_some hc
        have hb := continuation?_eq_some hx
        have ha : UInt8.ofNat (c.toNat / 64 % 32 + 192) = a := eq_ofNat_of_toNat (by omega)
        have hb : UInt8.ofNat (c.toNat % 64 + 128) = b := eq_ofNat_of_toNat (by omega)
        rw [utf8EncodeChar_eq, if_neg (by omega), if_pos (by omega), ha, hb]
        exact ⟨rest, rfl, rfl⟩
      · cases h
    split at h
    · next hthree =>
      split at h
      · next b d rest =>
        obtain ⟨x, hx, h⟩ := bind_eq_some_iff.1 h
        obtain ⟨y, hy, h⟩ := bind_eq_some_iff.1 h
        obtain ⟨c, hc, h⟩ := bind_eq_some_iff.1 h
        cases h
        obtain ⟨hleast, hn⟩ := scalar?_eq_some hc
        have hb := continuation?_eq_some hx
        have hd := continuation?_eq_some hy
        have ha : UInt8.ofNat (c.toNat / 4096 % 16 + 224) = a := eq_ofNat_of_toNat (by omega)
        have hb : UInt8.ofNat (c.toNat / 64 % 64 + 128) = b := eq_ofNat_of_toNat (by omega)
        have hd : UInt8.ofNat (c.toNat % 64 + 128) = d := eq_ofNat_of_toNat (by omega)
        rw [utf8EncodeChar_eq, if_neg (by omega), if_neg (by omega), if_pos (by omega), ha, hb, hd]
        exact ⟨rest, rfl, rfl⟩
      · cases h
    split at h
    · next hfour =>
      split at h
      · next b d e rest =>
        obtain ⟨x, hx, h⟩ := bind_eq_some_iff.1 h
        obtain ⟨y, hy, h⟩ := bind_eq_some_iff.1 h
        obtain ⟨z, hz, h⟩ := bind_eq_some_iff.1 h
        obtain ⟨c, hc, h⟩ := bind_eq_some_iff.1 h
        cases h
        obtain ⟨hleast, hn⟩ := scalar?_eq_some hc
        have hb := continuation?_eq_some hx
        have hd := continuation?_eq_some hy
        have he := continuation?_eq_some hz
        have ha : UInt8.ofNat (c.toNat / 262144 % 8 + 240) = a := eq_ofNat_of_toNat (by omega)
        have hb : UInt8.ofNat (c.toNat / 4096 % 64 + 128) = b := eq_ofNat_of_toNat (by omega)
        have hd : UInt8.ofNat (c.toNat / 64 % 64 + 128) = d := eq_ofNat_of_toNat (by omega)
        have he : UInt8.ofNat (c.toNat % 64 + 128) = e := eq_ofNat_of_toNat (by omega)
        rw [utf8EncodeChar_eq, if_neg (by omega), if_neg (by omega), if_neg (by omega), ha, hb, hd, he]
        exact ⟨rest, rfl, rfl⟩
      · cases h
    · cases h

theorem bytes_ofBytesAfter (skip : Nat) (bs : List UInt8) : bytes (ofBytesAfter skip bs) = bs.drop skip := by
  induction bs generalizing skip with
  | nil => cases skip <;> rfl
  | cons b bs ih =>
    cases skip with
    | succ skip => exact ih skip
    | zero =>
      rw [ofBytesAfter]
      split
      · next c width hleading =>
        obtain ⟨tail, hbs, hwidth⟩ := eq_encode_of_leadingChar? hleading
        have hpositive : 0 < width := by
          rw [hwidth, String.length_utf8EncodeChar]
          exact Char.utf8Size_pos c
        have hrest : bs.drop (width - 1) = tail := by
          have hdrop : (b :: bs).drop width = tail := by rw [hbs, hwidth, drop_left]
          rw [← hdrop, ← Nat.sub_add_cancel hpositive]
          rfl
        show String.utf8EncodeChar c ++ bytes (ofBytesAfter (width - 1) bs) = b :: bs
        rw [ih, hrest, hbs]
      · show b :: bytes (ofBytesAfter 0 bs) = b :: bs
        rw [ih, drop_zero]

/-- **Reading bytes as a text loses nothing.** -/
theorem bytes_canonical (t : Text) : t.canonical.bytes = t.bytes := bytes_ofBytesAfter 0 t.bytes

end Text

namespace Generate

variable {t : Text} {bs : List UInt8} {c : Char}

/-! ### Spellings -/

/-- The digits of a number, from `value` on. -/
theorem scans_digits {base value n : Nat} {isByte : Bool} (hne : t ≠ [])
    (hdigits : t.foldlM (Text.addDigit base) value = some n) (hbytes : Scan.codeBytes? isByte n = some bs)
    (start : List UInt8) : Scans (.code start base t.length value isByte) t [] (.literal (start ++ bs)) := by
  induction t generalizing value with
  | nil => exact absurd rfl hne
  | cons g t ih =>
    rw [foldlM_cons] at hdigits
    obtain ⟨m, hm, hrest⟩ := bind_eq_some_iff.1 hdigits
    cases t with
    | nil =>
      cases hrest
      have hstep : Scan.coded start base 1 value isByte g = some (.literal (start ++ bs)) := by
        simp [Scan.coded, hm, hbytes]
      have hskip : Scan.step (.code start base 1 value isByte) g = some (.literal (start ++ bs), []) := by
        simp [Scan.step, hstep]
      exact .skip hskip (.nil _)
    | cons g' t =>
      have hstep : Scan.coded start base (t.length + 2) value isByte g =
          some (.code start base (t.length + 1) m isByte) := by
        simp [Scan.coded, hm]
      have hskip : Scan.step (.code start base (t.length + 2) value isByte) g =
          some (.code start base (t.length + 1) m isByte, []) := by
        simp [Scan.step, hstep]
      exact .skip hskip (ih (cons_ne_nil _ _) hrest)

/-- Inside of a string, the text `p` stands for the bytes. -/
structure Spells (p : Text) (bs : List UInt8) : Prop where
  scans : ∀ start, Scans (.literal start) p [] (.literal (start ++ bs))
  source : ∀ g ∈ p, isSourceGlyph g = true

theorem Spells.nil : Spells [] [] := by
  refine ⟨fun start => ?_, nofun⟩
  rw [List.append_nil]
  exact .nil _

/-- What two texts spell is spelled by both together. -/
theorem Spells.append {p q : Text} {cs : List UInt8} (hp : Spells p bs) (hq : Spells q cs) :
    Spells (p ++ q) (bs ++ cs) := by
  refine ⟨fun start => ?_, forall_mem_append.2 ⟨hp.source, hq.source⟩⟩
  rw [← append_assoc]
  exact (hp.scans start).nil_append (hq.scans (start ++ bs))

/-- A backslash and a letter. -/
theorem spells_escape {x : Char} (hsource : isSourceGlyph (.char x) = true)
    (hx : ∀ start, Scan.escaped start (.char x) = some (.literal (start ++ bs))) : Spells [.char '\\', .char x] bs := by
  refine ⟨fun start => ?_, forall_mem_cons.2 ⟨rfl, forall_mem_singleton.2 hsource⟩⟩
  have hstep : (Scan.escape start).step (.char x) = some (.literal (start ++ bs), []) := by
    simp [Scan.step, hx]
  exact .skip rfl (.skip hstep (.nil _))

theorem source_lowerHex (width n : Nat) : ∀ g ∈ Text.lowerHex width n, isSourceGlyph g = true := by
  have hdigit : ∀ d < 16, isSourceGlyph (.char (Nat.digitChar d)) = true := by decide
  intro g hg
  rcases mem_append.1 hg with hg | hg
  · obtain rfl := eq_of_mem_replicate hg
    rfl
  · obtain ⟨c, hc, rfl⟩ := mem_map.1 hg
    obtain ⟨d, hd, rfl⟩ := exists_of_mem_toDigits (by decide) hc
    exact hdigit d hd

/-- A backslash, a letter and hexadecimal digits. -/
theorem spells_lowerHex {x : Char} {isByte : Bool} {width n : Nat} (hwidth : 0 < width)
    (hn : n < 16 ^ width) (hsource : isSourceGlyph (.char x) = true)
    (hx : ∀ start, Scan.escaped start (.char x) = some (.code start 16 width 0 isByte))
    (hbytes : Scan.codeBytes? isByte n = some bs) : Spells (.char '\\' :: .char x :: Text.lowerHex width n) bs := by
  refine ⟨fun start => ?_, ?_⟩
  · have hlength := length_lowerHex hwidth hn
    have hne : Text.lowerHex width n ≠ [] := ne_nil_of_length_pos (by omega)
    have hdigits := scans_digits hne (ofDigits?_lowerHex width n) hbytes start
    rw [hlength] at hdigits
    have hstep : (Scan.escape start).step (.char x) = some (.code start 16 width 0 isByte, []) := by
      simp [Scan.step, hx]
    exact .skip rfl (.skip hstep hdigits)
  · exact forall_mem_cons.2 ⟨rfl, forall_mem_cons.2 ⟨hsource, source_lowerHex width n⟩⟩

theorem spells_shortEscape {e : Char} (h : Text.shortEscape? c = some e) :
    Spells [.char '\\', .char e] (String.utf8EncodeChar c) := by
  have hc : Char.ofNat c.toNat = c := Char.ofNat_toNat c
  unfold Text.shortEscape? at h
  split at h
  case h_8 => cases h
  all_goals
    next hn =>
    rw [hn] at hc
    obtain rfl := hc
    cases h
    exact spells_escape rfl fun start => rfl

/-- A character that is written as it is. -/
theorem spells_printable (hc : isPrintable c = true) (hquote : c ≠ '"') (hback : c ≠ '\\') :
    Spells [.char c] (String.utf8EncodeChar c) := by
  have hne : ∀ x, isPrintable x = false → c ≠ x := by
    rintro x hx rfl
    simp [hx] at hc
  have hbreak : c ≠ '\n' := hne '\n' (by decide +kernel)
  have hnul : c ≠ '\x00' := hne '\x00' (by decide +kernel)
  have hmark : c ≠ '\uFEFF' := hne '\uFEFF' (by decide +kernel)
  refine ⟨fun start => .skip ?_ (.nil _), ?_⟩
  · simp [Scan.step, hquote, hback, hbreak, Glyph.bytes]
  · simp [isSourceGlyph, Glyph.isChar, hnul, hmark]

/-- **A glyph is quoted as it is read.** -/
theorem spells_quoteGlyph (g : Glyph) : Spells (Text.quoteGlyph '"' g) g.bytes := by
  cases g with
  | stray b =>
    have hbyte : b.toNat < 256 := b.toNat_lt
    have hlt : b.toNat < 16 ^ 2 := hbyte
    have hbytes : Scan.codeBytes? true b.toNat = some [b] := by
      rw [Scan.codeBytes?, if_pos rfl, if_pos hbyte, UInt8.ofNat_toNat]
    exact spells_lowerHex (x := 'x') (by decide) hlt rfl (fun start => rfl) hbytes
  | char c =>
    have hlt := toNat_lt c
    have hscalar : Scan.codeBytes? false c.toNat = some (String.utf8EncodeChar c) := by
      rw [Scan.codeBytes?, if_neg Bool.false_ne_true, scalar?_toNat (Nat.zero_le _), map_some]
    show Spells (Text.quoteChar '"' c) (String.utf8EncodeChar c)
    unfold Text.quoteChar
    split
    · next h =>
      rcases h with rfl | rfl
      · exact spells_escape rfl fun start => rfl
      · exact spells_escape rfl fun start => rfl
    · next hplain =>
      obtain ⟨hquote, hback⟩ := not_or.1 hplain
      split
      · next hprintable => exact spells_printable hprintable hquote hback
      split
      · next e he => exact spells_shortEscape he
      · split
        · next hascii =>
          have hbytes : Scan.codeBytes? true c.toNat = some (String.utf8EncodeChar c) := by
            rw [Scan.codeBytes?, if_pos rfl, if_pos (by omega), Text.utf8EncodeChar_eq, if_pos (by omega)]
          exact spells_lowerHex (x := 'x') (by decide) (by omega) rfl (fun start => rfl) hbytes
        · split
          · exact spells_lowerHex (x := 'u') (by decide) (by omega) rfl (fun start => rfl) hscalar
          · exact spells_lowerHex (x := 'U') (by decide) (by omega) rfl (fun start => rfl) hscalar

theorem spells_flatMap (t : Text) : Spells (t.flatMap (Text.quoteGlyph '"')) t.bytes := by
  induction t with
  | nil => exact .nil
  | cons g t ih => exact (spells_quoteGlyph g).append ih

/-! ### Strings -/

/-- **A quoted text is a string that stands for the bytes of the text.** -/
theorem scans_quoted (t : Text) (due : Bool) : Scans (.gap due) t.quoted [.string t.bytes] (.gap true) := by
  have hopen : Scans (.gap due) "\"" [] (.literal []) := by cases due <;> decide
  have hclose : Scans (.literal t.bytes) "\"" [.string t.bytes] (.gap true) := rfl
  have hbody := (spells_flatMap t.canonical).scans []
  rw [bytes_canonical, List.nil_append] at hbody
  exact (hopen.append_nil hbody).nil_append hclose

theorem source_quoted (t : Text) : ∀ g ∈ t.quoted, isSourceGlyph g = true := by
  simp only [Text.quoted, forall_mem_append]
  exact ⟨⟨by decide, (spells_flatMap t.canonical).source⟩, by decide⟩

end Generate
end RegexBuilder
