/-
# What is written is legible

Each atom that a node writes is read as that atom wherever nothing runs into it. This is where the checks of names
count: a name ends where its bracket is, because no glyph of a name is a bracket. What opens a group and what
follows a piece is in `Proofs.Opening`.
-/

import RegexBuilder.Pattern.Tree
import RegexBuilder.Proofs.Flattened
import RegexBuilder.Proofs.Written

namespace RegexBuilder

open List Text

/-! ### Texts up to a glyph -/

namespace Text

variable {g : Glyph} {u : Text} {p : Glyph → Bool}

theorem cut_append (h : g ∉ u) (rest : Text) : cut g (u ++ g :: rest) = (u, some rest) := by
  induction u with
  | nil => rw [List.nil_append, cut, if_pos rfl]
  | cons x u ih =>
    have hx : x ≠ g := fun hx => h (hx ▸ mem_cons_self)
    rw [cons_append, cut, if_neg hx, ih fun hg => h (mem_cons_of_mem _ hg)]

theorem cut_of_not_mem (h : g ∉ u) : cut g u = (u, none) := by
  induction u with
  | nil => rfl
  | cons x u ih =>
    have hx : x ≠ g := fun hx => h (hx ▸ mem_cons_self)
    rw [cut, if_neg hx, ih fun hg => h (mem_cons_of_mem _ hg)]

theorem takeWhile_append (hu : ∀ x ∈ u, p x = true) (hg : p g = false) (rest : Text) :
    (u ++ g :: rest).takeWhile p = u := by
  rw [takeWhile_append_of_pos hu, takeWhile_cons_of_neg (by rw [hg]; decide), List.append_nil]

theorem dropWhile_append (hu : ∀ x ∈ u, p x = true) (hg : p g = false) (rest : Text) :
    (u ++ g :: rest).dropWhile p = g :: rest := by
  rw [dropWhile_append_of_pos hu, dropWhile_cons_of_neg (by rw [hg]; decide)]

end Text

variable {g : Glyph} {u w t name : Text} {c : Char} {width n : Nat} {role : NameRole}

theorem until?_append (h : g ∉ u) (make : Text → Lexeme) (rest : Text) :
    until? g make (u ++ g :: rest) = some (make u, rest) := by
  unfold until?
  rw [cut_append h]

/-! ### Characters and escapes -/

/-- **Every character is read as itself.** -/
theorem isLegible_char (c : Char) : (Lexeme.atom (.char c)).IsLegible := by
  refine ⟨fun {rest} _ => ?_, isComplete_escapeChar (by decide) c, fun {u d} h hd => ?_⟩
  · show lexeme? (escapeChar literalMeta c ++ rest) = _
    unfold escapeChar
    split
    · next hc =>
      show (escape? (.char c :: rest)).map _ = _
      simp [escape?, isAlphanum_of_mem_literalMeta hc]
    · next hc => exact lexeme?_of_not_mem hc rest
  · have h : escapeChar literalMeta c = u ++ [Glyph.char '\\', d] := h
    have hlength := congrArg List.length h
    unfold escapeChar at h hlength
    split at h
    · next hc =>
      rw [if_pos hc] at hlength
      have hu : u = [] := by
        rw [← length_eq_zero_iff]
        simp only [length_append, length_cons, length_nil] at hlength
        omega
      subst hu
      cases h
      exact absurd hc (not_mem_literalMeta_of_isDigit hd)
    · next hc =>
      rw [if_neg hc] at hlength
      simp at hlength

/-- **An escape is read as such if the right number of glyphs belongs to it.** -/
theorem isLegible_escape (hc : c.isAlphanum) (hslash : .char '\\' ∉ w)
    (hlen : ∀ {rest}, (Lexeme.atom (.escape (.char c :: w))).Apart rest →
      escapeLength (.char c :: (w ++ rest)) = w.length + 1) : (Lexeme.atom (.escape (.char c :: w))).IsLegible := by
  have hslash' : .char '\\' ∉ Glyph.char c :: w := by
    intro h
    rcases mem_cons.1 h with h | h
    · cases h
      cases hc
    · exact hslash h
  refine ⟨fun {rest} hrest => ?_, ?_, fun {u d} h hd => ?_⟩
  · show (escape? (.char c :: (w ++ rest))).map _ = _
    simp only [escape?, hc, if_true, hlen hrest, length_cons, length_append]
    rw [if_pos (by omega), take_succ_cons, drop_succ_cons, take_left, drop_left]
    rfl
  · exact isComplete_append_of_not_mem [.char '\\'] (cons_ne_nil _ _) hslash'
  · have h : .char '\\' :: .char c :: w = u ++ [Glyph.char '\\', d] := h
    cases u with
    | nil =>
      cases h
      rfl
    | cons g u =>
      obtain ⟨-, h⟩ := List.cons.inj h
      exact absurd (h ▸ mem_append_right u mem_cons_self) hslash'

/-- An escape whose first glyph says how many belong to it. -/
theorem isLegible_code (hc : c.isAlphanum) (hslash : .char '\\' ∉ w)
    (hlen : ∀ rest, escapeLength (.char c :: rest) = w.length + 1) : (Lexeme.atom (.escape (.char c :: w))).IsLegible :=
  isLegible_escape hc hslash fun _ => hlen _

theorem isLegible_digit (hc : c.isDigit) : (Lexeme.atom (.escape [.char c])).IsLegible := by
  have hglyph : (Glyph.char c).isDigit = true := hc
  refine isLegible_escape (by simp [Char.isAlphanum, hc]) not_mem_nil fun {rest} hrest => ?_
  rw [List.nil_append, escapeLength, if_pos hglyph]
  cases rest with
  | nil => rfl
  | cons e rest =>
    have he : e.isDigit = false := hrest.digit rfl hglyph rfl
    rw [take_succ_cons, takeWhile_cons_of_neg (by rw [he]; decide)]
    rfl

/-- Three digits are read as one escape. -/
theorem isLegible_digits (hlen : t.length = 3) (ht : ∀ g ∈ t, g.isDigit = true) :
    (Lexeme.atom (.escape t)).IsLegible := by
  obtain ⟨a, b, c, rfl⟩ := length_eq_three.1 hlen
  have ha := ht a (by simp)
  have hb := ht b (by simp)
  have hc := ht c (by simp)
  cases a with
  | stray => cases ha
  | char x =>
    have hx : x.isDigit = true := ha
    refine isLegible_escape (by simp [Char.isAlphanum, hx]) (fun h => ?_) fun {rest} _ => ?_
    · have := ht _ (mem_cons_of_mem _ h)
      cases this
    · rw [escapeLength, if_pos ha]
      simp [hb, hc]

/-- A name between two glyphs belongs to the escape, if the second is not in the name. -/
theorem isLegible_named {o z : Char} (hc : c.isAlphanum) (ho : o ≠ '\\') (hz : z ≠ '\\')
    (hoz : o ≠ z) (hslash : Glyph.char '\\' ∉ name) (hname : Glyph.char z ∉ name)
    (hlen : ∀ rest, escapeLength (.char c :: rest) = 2 + (rest.takeWhile (· ≠ .char z)).length) :
    (Lexeme.atom (.escape (.char c :: .char o :: (name ++ [Glyph.char z])))).IsLegible := by
  refine isLegible_escape hc ?_ fun {rest} _ => ?_
  · simp only [mem_cons, mem_append, hslash, not_mem_nil, Glyph.char.injEq, ho.symm,
      hz.symm, or_false, not_false_eq_true]
  · have htake : (Glyph.char o :: name ++ Glyph.char z :: rest).takeWhile (· ≠ .char z) = .char o :: name := by
      refine takeWhile_append (fun x hx => ?_) (by simp) rest
      rcases mem_cons.1 hx with rfl | hx
      · simpa using hoz
      · simpa using fun h : x = .char z => hname (h ▸ hx)
    have hsplit : Glyph.char o :: (name ++ [Glyph.char z]) ++ rest = Glyph.char o :: name ++ Glyph.char z :: rest := by
      simp
    rw [hlen, hsplit, htake]
    simp only [length_cons, length_append, length_nil]
    omega

/-! ### Sets in brackets -/

/-- A glyph that means nothing to the brackets around it. -/
def Glyph.IsInner (g : Glyph) : Prop := g ≠ .char '\\' ∧ g ≠ .char '[' ∧ g ≠ .char ']'

instance (g : Glyph) : Decidable g.IsInner := inferInstanceAs (Decidable (_ ∧ _ ∧ _))

/-- The text may stand between brackets: it opens and closes none. -/
def Text.IsInner (u : Text) : Prop :=
  ∀ depth rest, closing? depth (u ++ rest) = (closing? depth rest).map fun x => (u ++ x.1, x.2)

namespace Text.IsInner

variable {u v t : Text}

theorem nil : IsInner [] := fun depth rest => by
  rw [List.nil_append]
  cases closing? depth rest <;> rfl

theorem append (hu : IsInner u) (hv : IsInner v) : IsInner (u ++ v) := by
  intro depth rest
  rw [append_assoc, hu, hv, Option.map_map]
  exact congrArg (Option.map · _) (funext fun x => by simp)

theorem flatten : ∀ {l : List Text}, (∀ u ∈ l, IsInner u) → IsInner l.flatten
  | [], _ => nil
  | u :: l, h => by
    rw [flatten_cons]
    exact (h u mem_cons_self).append (flatten fun v hv => h v (mem_cons_of_mem _ hv))

theorem of_forall (h : ∀ g ∈ u, g.IsInner) : IsInner u := by
  induction u with
  | nil => exact nil
  | cons g u ih =>
    obtain ⟨hslash, ho, hc⟩ := h g mem_cons_self
    refine append (u := [g]) (fun depth rest => ?_) (ih fun x hx => h x (mem_cons_of_mem _ hx))
    rw [singleton_append, closing?]
    · rfl
    · exact fun _ _ hg _ => hslash hg
    · exact ho
    · exact fun _ => hc
    · exact fun _ _ => hc

/-- What a backslash stands before may be anything. -/
theorem escape (g : Glyph) : IsInner [.char '\\', g] := fun depth rest => by
  rw [cons_append, singleton_append, closing?]
  rfl

theorem escaped (ht : t ≠ []) (h : ∀ g ∈ t, g.IsInner) : IsInner (.char '\\' :: t) := by
  obtain ⟨g, w, rfl⟩ := exists_cons_of_ne_nil ht
  exact (escape g).append (of_forall fun x hx => h x (mem_cons_of_mem _ hx))

/-- A set may stand in a set. -/
theorem bracketed (h : IsInner u) : IsInner ("[" ++ u ++ "]") := by
  intro depth rest
  have hopen : ("[" ++ u ++ "]" : Text) ++ rest = .char '[' :: (u ++ Glyph.char ']' :: rest) := by
    simp [Text.ofString]
  rw [hopen, closing?, h, closing?, Option.map_map, Option.map_map]
  exact congrArg (Option.map · _) (funext fun x => by simp [Text.ofString])

end Text.IsInner

/-- **A set is read up to the bracket that closes it.** -/
theorem isLegible_bracket (h : u.IsInner) : (Lexeme.atom (.bracket ("[" ++ u ++ "]"))).IsLegible := by
  refine .of_ending (v := "[" ++ u) (g := .char ']') rfl rfl (by decide) fun {rest} _ => ?_
  have hopen : ("[" ++ u ++ "]" : Text) ++ rest = .char '[' :: (u ++ Glyph.char ']' :: rest) := by
    simp [Text.ofString]
  show lexeme? (("[" ++ u ++ "]" : Text) ++ rest) = _
  rw [hopen, lexeme?, if_neg (by decide), if_pos rfl, h, closing?]
  rfl

/-! ### The atoms of leaves -/

theorem Text.length_ofNatBase {base : Nat} (hb : 1 < base) (hw : 0 < width) (h : n < base ^ width) :
    (Text.ofNatBase base width n).length = width := by
  have := (Nat.length_toDigits_le_iff hb hw).2 h
  unfold Text.ofNatBase Text.padLeft
  simp only [length_append, length_replicate, length_map]
  omega

theorem Text.isDigit_of_mem_ofNatBase (h : g ∈ Text.ofNatBase 8 width n) : g.isDigit = true := by
  have hdigit : ∀ d < 8, (Nat.digitChar d).toUpper.isDigit = true := by decide
  obtain ⟨d, hd, rfl⟩ := exists_of_mem_ofNatBase (by decide) h
  exact hdigit d hd

theorem Character.form_atom (c : Character) : c.atom.form = c.form false := by
  cases c <;> rfl

/-- **The atom of a character is legible.** -/
theorem Character.isLegible_atom (c : Character) : (Lexeme.atom c.atom).IsLegible := by
  cases c with
  | plain => exact isLegible_char _
  | null => exact isLegible_digit (c := '0') rfl
  | backspace => exact isLegible_bracket (u := "\\b") (.escaped (t := "b") (by decide) (by decide))
  | bell => exact isLegible_code (c := 'a') rfl not_mem_nil fun _ => rfl
  | formFeed => exact isLegible_code (c := 'f') rfl not_mem_nil fun _ => rfl
  | newLine => exact isLegible_code (c := 'n') rfl not_mem_nil fun _ => rfl
  | carriageReturn => exact isLegible_code (c := 'r') rfl not_mem_nil fun _ => rfl
  | tab => exact isLegible_code (c := 't') rfl not_mem_nil fun _ => rfl
  | verticalTab => exact isLegible_code (c := 'v') rfl not_mem_nil fun _ => rfl
  | controlLetter n =>
    have hletter : ∀ n : Fin 26, .char '\\' ∉ [Glyph.char (Char.ofNat (n + 65))] := by decide
    exact isLegible_code (c := 'c') rfl (hletter n) fun _ => rfl
  | hexCode n =>
    have hlen : (Text.ofNatBase 16 2 n.toNat).length = 2 :=
      length_ofNatBase (by decide) (by decide) (Nat.lt_of_lt_of_le n.toNat_lt (by decide))
    exact isLegible_code (c := 'x') (w := Text.ofNatBase 16 2 n.toNat) rfl
      (not_mem_ofNatBase (by decide) (by decide)) fun _ => by rw [hlen]; rfl
  | unicodeCode n =>
    have hlen : (Text.ofNatBase 16 4 n.toNat).length = 4 :=
      length_ofNatBase (by decide) (by decide) (Nat.lt_of_lt_of_le n.toNat_lt (by decide))
    exact isLegible_code (c := 'u') (w := Text.ofNatBase 16 4 n.toNat) rfl
      (not_mem_ofNatBase (by decide) (by decide)) fun _ => by rw [hlen]; rfl
  | octalCode n =>
    exact isLegible_digits (length_ofNatBase (by decide) (by decide) n.isLt) fun _ =>
      isDigit_of_mem_ofNatBase

theorem isCategoryGlyph_of_mem (h : checkCategory name = .ok ()) : ∀ g ∈ name, isCategoryGlyph g = true := by
  unfold checkCategory at h
  split at h
  · cases h
  · split at h
    · next hall => exact all_eq_true.1 hall
    · cases h

theorem isNameGlyph_of_mem (h : checkName role name = .ok ()) : ∀ g ∈ name, isNameGlyph g = true := by
  unfold checkName at h
  split at h
  · cases h
  · split at h
    · next hall => exact all_eq_true.1 hall
    · cases h

theorem not_mem_of_forall {p : Glyph → Bool} (h : ∀ g ∈ t, p g = true) (hg : p g = false) : g ∉ t := by
  intro hmem
  rw [h g hmem] at hg
  cases hg

/-- The glyphs that end a name or would be misread in it are no glyphs of a name. -/
theorem isNameGlyph_eq_false : ∀ c ∈ ['\\', '>', ')', '=', '!'], isNameGlyph (.char c) = false :=
  all_iff_forall_prop.1 (by decide +kernel)

theorem CharClass.form_atom {c : CharClass} (h : ∀ code, c.kind ≠ .undeclared code) : c.atom.form = c.form := by
  unfold atom form
  cases hkind : c.kind with
  | undeclared code => exact absurd hkind (h code)
  | word | notWord | digit | notDigit | space | notSpace | category | notCategory => rfl

/-- **The atom of a class is legible,** if the name of a category has passed its check. -/
theorem CharClass.isLegible_atom {c : CharClass} (h : ∀ code, c.kind ≠ .undeclared code)
    (hname : c.kind = .category ∨ c.kind = .notCategory → checkCategory c.name = .ok ()) :
    (Lexeme.atom c.atom).IsLegible := by
  have hcategory : checkCategory c.name = .ok () → .char '\\' ∉ c.name ∧ .char '\x7d' ∉ c.name :=
    fun hok => ⟨not_mem_of_forall (isCategoryGlyph_of_mem hok) (by decide),
      not_mem_of_forall (isCategoryGlyph_of_mem hok) (by decide)⟩
  unfold atom
  cases hkind : c.kind with
  | undeclared code => exact absurd hkind (h code)
  | word => exact isLegible_code (c := 'w') rfl not_mem_nil fun _ => rfl
  | notWord => exact isLegible_code (c := 'W') rfl not_mem_nil fun _ => rfl
  | digit => exact isLegible_code (c := 'd') rfl not_mem_nil fun _ => rfl
  | notDigit => exact isLegible_code (c := 'D') rfl not_mem_nil fun _ => rfl
  | space => exact isLegible_code (c := 's') rfl not_mem_nil fun _ => rfl
  | notSpace => exact isLegible_code (c := 'S') rfl not_mem_nil fun _ => rfl
  | category =>
    obtain ⟨hslash, hclose⟩ := hcategory (hname (.inl hkind))
    exact isLegible_named (c := 'p') (o := '\x7b') rfl (by decide) (by decide) (by decide) hslash hclose fun _ => rfl
  | notCategory =>
    obtain ⟨hslash, hclose⟩ := hcategory (hname (.inr hkind))
    exact isLegible_named (c := 'P') (o := '\x7b') rfl (by decide) (by decide) (by decide) hslash hclose fun _ => rfl

/-- **An anchor of a declared kind is legible.** -/
theorem AnchorKind.isLegible_atom {k : AnchorKind} (h : k.form? = some t) :
    (Lexeme.atom k.atom).IsLegible ∧ k.atom.form = t := by
  cases k with
  | lineStart | lineEnd => cases h; exact ⟨.of_ending (v := []) rfl rfl (by decide) fun _ => rfl, rfl⟩
  | textStart => cases h; exact ⟨isLegible_code (c := 'A') rfl not_mem_nil fun _ => rfl, rfl⟩
  | textEndOrNewline =>
    cases h; exact ⟨isLegible_code (c := 'Z') rfl not_mem_nil fun _ => rfl, rfl⟩
  | textEnd => cases h; exact ⟨isLegible_code (c := 'z') rfl not_mem_nil fun _ => rfl, rfl⟩
  | contiguous => cases h; exact ⟨isLegible_code (c := 'G') rfl not_mem_nil fun _ => rfl, rfl⟩
  | wordBoundary =>
    cases h; exact ⟨isLegible_code (c := 'b') rfl not_mem_nil fun _ => rfl, rfl⟩
  | notWordBoundary =>
    cases h; exact ⟨isLegible_code (c := 'B') rfl not_mem_nil fun _ => rfl, rfl⟩
  | undeclared => cases h

/-- A graph without raw texts, in which names have passed their checks. -/
structure Graph.HasCheckedNames (g : Graph) : Prop where
  raw : ∀ {i t}, g.node? i ≠ some (.leaf (.raw t))
  category : ∀ {i c}, g.node? i = some (.leaf (.charClass c)) →
    c.kind = .category ∨ c.kind = .notCategory → checkCategory c.name = .ok ()
  backreference : ∀ {i b}, g.node? i = some (.leaf (.backreference b)) → b.name ≠ [] → checkName .name b.name = .ok ()
  named : ∀ {i name c}, g.node? i = some (.enclosed (.named name) c) → checkName .name name = .ok ()
  balancing : ∀ {i name other c}, g.node? i = some (.enclosed (.balancing name other) c) →
    (name ≠ [] → checkName .name name = .ok ()) ∧ checkName .other other = .ok ()
  condition : ∀ {i c e yes no}, g.node? i = some (.conditional c e yes no) → c.kind = .groupName →
    checkName .name c.name = .ok ()

/-- A number from 1 to 9 behind a backslash. -/
theorem isLegible_numbered {n : Int} (h : 1 ≤ n) (h' : n ≤ Objection.maxBackreference) :
    (Lexeme.atom (.escape (Text.ofInt n))).IsLegible := by
  obtain ⟨k, rfl⟩ := Int.eq_ofNat_of_zero_le (by omega : 0 ≤ n)
  have hk : k < 10 := by
    unfold Objection.maxBackreference at h'
    omega
  have hdigits : Text.ofInt k = [.char (Nat.digitChar k)] := congrArg (List.map Glyph.char) (Nat.toDigits_of_lt_base hk)
  have hdigit : ∀ k < 10, (Nat.digitChar k).isDigit = true := by decide
  rw [hdigits]
  exact isLegible_digit (hdigit k hk)

/-- A group name behind a backslash. -/
theorem isLegible_backreference (h : checkName role name = .ok ()) :
    (Lexeme.atom (.escape ("k<" ++ name ++ ">"))).IsLegible := by
  have hname := isNameGlyph_of_mem h
  exact isLegible_named (c := 'k') (o := '<') rfl (by decide) (by decide) (by decide)
    (not_mem_of_forall hname (isNameGlyph_eq_false _ (by decide)))
    (not_mem_of_forall hname (isNameGlyph_eq_false _ (by decide))) fun _ => rfl

/-- A comment that does not contain its end. -/
theorem isLegible_comment {text : Text} (h : .char ')' ∉ text) :
    (Lexeme.atom (.note ("(?#" ++ text ++ ")"))).IsLegible := by
  refine .of_ending (v := "(?#" ++ text) (g := .char ')') rfl rfl (by decide) fun {rest} _ => ?_
  rw [Lexeme.form, Atom.form, append_assoc, append_assoc]
  exact until?_append h _ rest

/-! ### Sets -/

/-- The only number that is written as a bracket that opens a set. -/
theorem eq_of_read_ofCode {n : Int32} (h : (Glyph.ofCode n).read = '[') : n = 91 := by
  unfold Glyph.ofCode at h
  split at h
  · next hn =>
    have hnat : n.toInt.toNat = 91 :=
      calc n.toInt.toNat
        _ = (Char.ofNat n.toInt.toNat).toNat := by rw [Char.ofNat, dif_pos hn.2]; rfl
        _ = '['.toNat := congrArg Char.toNat h
    refine Int32.toInt_inj.1 ?_
    show n.toInt = 91
    omega
  · exact absurd h (by decide)

/-- **A character may stand in a set unless it is a plain bracket.** -/
theorem Character.isInner_form {c : Character} (h : c ≠ .plain 91) : (c.form true).IsInner := by
  have hdigits : ∀ {base width n}, 1 < base → base ≤ 16 →
      ∀ g ∈ Text.ofNatBase base width n, g.IsInner := by
    intro base width n hb hb' g hg
    have hinner : ∀ d < 16, (Glyph.char (Nat.digitChar d).toUpper).IsInner := by decide
    obtain ⟨d, hd, rfl⟩ := exists_of_mem_ofNatBase hb hg
    exact hinner d (by omega)
  cases c with
  | plain n =>
    show (escapeChar setMeta (Glyph.ofCode n).read).IsInner
    unfold escapeChar
    split
    · exact .escape _
    · next hset =>
      refine .of_forall fun g hg => ?_
      cases mem_singleton.1 hg
      refine ⟨fun hg => ?_, fun hg => ?_, fun hg => ?_⟩
      · rw [Glyph.char.inj hg] at hset
        exact hset (by decide)
      · exact h (congrArg Character.plain (eq_of_read_ofCode (Glyph.char.inj hg)))
      · rw [Glyph.char.inj hg] at hset
        exact hset (by decide)
  | null | bell | backspace | formFeed | newLine | carriageReturn | tab | verticalTab =>
    exact .escape _
  | controlLetter n =>
    have hletter : ∀ n : Fin 26, (Glyph.char (Char.ofNat (n + 65))).IsInner := by decide
    refine (IsInner.escape (.char 'c')).append (.of_forall fun g hg => ?_)
    cases mem_singleton.1 hg
    exact hletter n
  | hexCode =>
    exact (IsInner.escape (.char 'x')).append (.of_forall (hdigits (by decide) (by decide)))
  | unicodeCode =>
    exact (IsInner.escape (.char 'u')).append (.of_forall (hdigits (by decide) (by decide)))
  | octalCode => exact .escaped (ofNatBase_ne_nil _ _ _) (hdigits (by decide) (by decide))

/-- **A class may stand in a set.** -/
theorem CharClass.isInner_form {c : CharClass}
    (hname : c.kind = .category ∨ c.kind = .notCategory → checkCategory c.name = .ok ()) : c.form.IsInner := by
  have hcategory : checkCategory c.name = .ok () → c.name.IsInner := fun hok =>
    have hglyph := isCategoryGlyph_of_mem hok
    .of_forall fun g hg =>
      ⟨fun h => not_mem_of_forall hglyph (by decide) (h ▸ hg), fun h => not_mem_of_forall hglyph (by decide) (h ▸ hg),
        fun h => not_mem_of_forall hglyph (by decide) (h ▸ hg)⟩
  have hbraces : ∀ {p : Glyph}, checkCategory c.name = .ok () →
      Text.IsInner ([.char '\\', p] ++ "\x7b" ++ c.name ++ "\x7d") := by
    intro p hok
    have hopen : Text.IsInner "\x7b" := .of_forall (by decide)
    have hclose : Text.IsInner "\x7d" := .of_forall (by decide)
    exact (((IsInner.escape p).append hopen).append (hcategory hok)).append hclose
  unfold form
  cases hkind : c.kind with
  | undeclared => exact .nil
  | category => exact hbraces (p := .char 'p') (hname (.inl hkind))
  | notCategory => exact hbraces (p := .char 'P') (hname (.inr hkind))
  | word | notWord | digit | notDigit | space | notSpace => exact .escape _

theorem Range.isInner_form {r : Range Character} (hfirst : r.first ≠ .plain 91)
    (hlast : r.last ≠ .plain 91) : r.form.IsInner := by
  unfold form
  split
  · exact Character.isInner_form hfirst
  · exact ((Character.isInner_form hfirst).append (.of_forall (by decide))).append (Character.isInner_form hlast)

namespace CharacterSet

variable {g : Graph} {s : CharacterSet Ref}

variable {ranges : List (Range Character)} {t : Text}

/-- What is written of ranges and members may stand in a set if each of them may. -/
theorem isInner_contents {members : List Ref} (h : contents g ranges members = .ok t)
    (hranges : ∀ r ∈ ranges, r.form.IsInner)
    (hmembers : ∀ m ∈ members, ∀ u, g.memberForm? m = some u → u.IsInner) : t.IsInner := by
  obtain ⟨forms, hforms, h⟩ := bind_eq_ok.1 h
  cases h
  refine (IsInner.flatten fun u hu => ?_).append (.flatten fun u hu => ?_)
  · obtain ⟨r, hr, rfl⟩ := mem_map.1 hu
    exact hranges r hr
  · obtain ⟨m, hm, hmu⟩ := exists_mem_of_forall₂ (mapM_eq_ok_iff.1 hforms).flip hu
    split at hmu
    · cases hmu
    · next hform =>
      cases hmu
      exact hmembers m hm _ hform

/-- **The text of a set is legible,** if what stands in it may stand in a set. -/
theorem isLegible_bracketed {subtracted : List (Range Character)}
    (h : s.bracketed g ranges subtracted = .ok t) (hranges : ∀ r ∈ ranges, r.form.IsInner)
    (hsubtracted : ∀ r ∈ subtracted, r.form.IsInner)
    (hmembers : ∀ m ∈ s.members ++ s.subtractedMembers, ∀ u, g.memberForm? m = some u → u.IsInner) :
    (Lexeme.atom (.bracket t)).IsLegible := by
  obtain ⟨base, hbase, h⟩ := bind_eq_ok.1 h
  have hbase := isInner_contents hbase hranges fun m hm => hmembers m (mem_append_left _ hm)
  have hopening : ∀ {u : Text}, u.IsInner →
      (Lexeme.atom (.bracket ((if s.negated then ("[^" : Text) else "[") ++ u ++ "]"))).IsLegible := by
    intro u hu
    split
    · exact isLegible_bracket ((IsInner.of_forall (u := "^") (by decide)).append hu)
    · exact isLegible_bracket hu
  cases hsub : s.hasSubtraction with
  | false =>
    simp only [hsub, Bool.false_eq_true, if_false] at h
    cases h
    exact hopening hbase
  | true =>
    simp only [hsub, if_true] at h
    obtain ⟨minus, hminus, h⟩ := bind_eq_ok.1 h
    have hminus := isInner_contents hminus hsubtracted fun m hm =>
      hmembers m (mem_append_right _ hm)
    have hdash : Text.IsInner "-" := .of_forall (by decide)
    cases h
    have htext : ∀ o : Text, o ++ base ++ "-[" ++ minus ++ "]]" =
        o ++ (base ++ "-" ++ ("[" ++ minus ++ "]")) ++ "]" := fun o => by simp [Text.ofString]
    rw [htext]
    exact hopening ((hbase.append hdash).append hminus.bracketed)

end CharacterSet

end RegexBuilder
