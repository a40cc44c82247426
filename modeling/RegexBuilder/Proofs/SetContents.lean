/-
# What is written in a set, read again

Ranges and classes are written one behind the other in a set. Three things can go wrong when they are read again
(`levels?_of_isUnmistaken`, `isUnmistaken_of_levels?`):

* an octal code beyond the limit is read as another character;
* a range up to a plain `[` is read as its first character, from which a set is subtracted;
* a `\0` takes the octal digits of the pieces behind it.

The first two change an item. The third loses one, and no misreading makes up for that: an item is never read from
less than one piece (`length_items_le`).
-/

import RegexBuilder.Proofs.SetReader

namespace RegexBuilder.SetText

open List Option

/-- What stands at one place of a set: a range, or a class. A character is the range that holds only it. -/
inductive Piece where
  | range (r : Range Character)
  | charClass (c : CharClass)
deriving DecidableEq, Repr

namespace Piece

/-- How the piece is written. -/
def form : Piece → Text
  | range r => r.form
  | charClass c => c.form

/-- What the piece is in a set. -/
def item : Piece → Extent
  | range r => .span r.first.value r.last.value
  | charClass c => .charClass (plainClass c)

/-- The characters that are written: a range of one character is written as its first endpoint. -/
def written : Piece → List Character
  | range r => if r.isSingle then [r.first] else [r.first, r.last]
  | charClass _ => []

/-- The numbers are Unicode scalar values, ranges are not inverted, and classes have passed their checks. -/
def IsSound : Piece → Prop
  | range r => IsScalar r.first.value ∧ IsScalar r.last.value ∧ r.first.value ≤ r.last.value
  | charClass c => IsSoundClass c

/-- A range up to a plain `[`. -/
def endsInBracket (p : Piece) : Bool :=
  match p.written with
  | [_, c] => c = .plain 91
  | _ => false

/-- The piece is written `\0`. -/
def isNull (p : Piece) : Bool := p.written = [.null]

/-- The first character is an octal digit that stands for itself. -/
def beginsWithDigit (p : Piece) : Bool :=
  match p.written with
  | c :: _ => isOctalDigit c
  | [] => false

variable {r : Range Character}

theorem endsInBracket_range : (range r).endsInBracket = true ↔ r.isSingle = false ∧ r.last = .plain 91 := by
  rw [endsInBracket, written]
  cases r.isSingle with
  | true => exact ⟨nofun, nofun⟩
  | false => simp

theorem isNull_range : (range r).isNull = true ↔ r.isSingle = true ∧ r.first = .null := by
  rw [isNull, written, decide_eq_true_iff]
  cases r.isSingle with
  | true | false => simp

theorem beginsWithDigit_range : (range r).beginsWithDigit = isOctalDigit r.first := by
  rw [beginsWithDigit, written]
  cases r.isSingle <;> rfl

end Piece

/-- The pieces as they are written. -/
def forms (ps : List Piece) : Text := ps.flatMap Piece.form

/-- Nothing that is written can be taken for something else. -/
structure IsUnmistaken (limit : Nat) (ps : List Piece) : Prop where
  octal : ∀ p ∈ ps, ∀ c ∈ p.written, number limit c = c.value
  bracket : ∀ p ∈ ps, p.endsInBracket = false
  null : ps.IsChain fun p q => p.isNull = true → q.beginsWithDigit = false

/-- What follows the pieces of a set: a subtraction, or the end. -/
inductive IsEnd : Text → Prop
  | close (t : Text) : IsEnd (.char ']' :: t)
  | subtraction (t : Text) : IsEnd (.char '-' :: .char '[' :: t)

variable {limit : Nat} {r : Range Character} {c : CharClass} {p : Piece} {ps : List Piece} {t u : Text}

theorem forms_cons (p : Piece) (ps : List Piece) : forms (p :: ps) = p.form ++ forms ps := flatMap_cons

theorem forms_append (ps qs : List Piece) : forms (ps ++ qs) = forms ps ++ forms qs := flatMap_append

/-! ### How pieces begin -/

/-- What is written behind the first character of a range. -/
def tail (r : Range Character) : Text := if r.isSingle then [] else "-" ++ r.last.form true

theorem form_range (r : Range Character) : (Piece.range r).form = r.first.form true ++ tail r := by
  show r.form = _
  unfold Range.form tail
  split
  · rw [List.append_nil]
  · rw [append_assoc]

/-- **How a piece begins.** -/
theorem Piece.IsSound.exists_form (h : p.IsSound) :
    ∃ x t, p.form = .char x :: t ∧ (x ∈ setMeta → x = '\\') ∧ isOctal (.char x) = p.beginsWithDigit := by
  cases p with
  | range r =>
    obtain ⟨x, t, hform, hmeta, -, hoctal, -⟩ := SetText.exists_form h.1
    refine ⟨x, t ++ tail r, by rw [form_range, hform]; rfl, hmeta, ?_⟩
    rw [hoctal, beginsWithDigit_range]
  | charClass c =>
    obtain ⟨kind, name⟩ := c
    have hmeta : '\\' ∈ setMeta → '\\' = '\\' := fun _ => rfl
    cases kind with
    | undeclared code => exact absurd rfl (IsSoundClass.kind h code)
    | word | notWord | digit | notDigit | space | notSpace | category | notCategory => exact ⟨_, _, rfl, hmeta, rfl⟩

/-- No piece begins with a sign that means something in a set. -/
theorem forms_ne_cons (hp : p.IsSound) {x : Char} (hx : x ∈ setMeta) (hslash : x ≠ '\\') :
    forms (p :: ps) ++ t ≠ .char x :: u := by
  obtain ⟨y, w, hform, hmeta, -⟩ := hp.exists_form
  rw [forms_cons, hform]
  intro heq
  obtain rfl : y = x := Glyph.char.inj (List.cons.inj heq).1
  exact hslash (hmeta hx)

/-- No range goes on in the text. -/
def IsApart (t : Text) : Prop := ∀ rest, t = .char '-' :: rest → goesOn rest = false

theorem isApart_forms (hps : ∀ p ∈ ps, p.IsSound) (ht : IsEnd t) : IsApart (forms ps ++ t) := by
  cases ps with
  | nil =>
    rintro rest rfl
    cases ht
    rfl
  | cons p ps =>
    exact fun _ heq => absurd heq (forms_ne_cons (hps p mem_cons_self) (by decide) (by decide))

variable {g : Glyph} {x : Extent}

/-- An octal digit at the front is the first character of a piece. -/
theorem exists_of_isOctal (hps : ∀ p ∈ ps, p.IsSound) (ht : IsEnd t) (hg : isOctal g = true)
    (h : forms ps ++ t = g :: u) : ∃ r qs, ps = .range r :: qs ∧ u = tail r ++ (forms qs ++ t) := by
  cases ps with
  | nil =>
    have h : t = g :: u := h
    subst h
    cases ht <;> cases hg
  | cons p ps =>
    have hp := hps p mem_cons_self
    obtain ⟨x, w, hform, -, hoctal⟩ := hp.exists_form
    rw [forms_cons, hform] at h
    cases h
    rw [hg] at hoctal
    cases p with
    | charClass => cases hoctal
    | range r =>
      obtain ⟨y, v, hform', -, hone, -, -⟩ := exists_form hp.1
      rw [form_range, hform'] at hform
      cases hform
      rw [hone (by rintro rfl; cases hg)]
      exact ⟨r, ps, rfl, append_assoc ..⟩

/-! ### Reading one item -/

/-- What is read from a range if its first character is read as `n`. -/
def reading (limit : Nat) (n : Int32) (r : Range Character) : Extent :=
  .span n (if r.isSingle then n else number limit r.last)

theorem span?_of_isApart {n : Int32} (h : IsApart t) : span? limit n t = some (.span n n, t) := by
  unfold span?
  split
  · next rest => rw [if_neg (by rw [h rest rfl]; decide)]
  · rfl

/-- A character goes on with a range, unless it is a bare `[`. -/
theorem goesOn_form {c : Character} (h : IsScalar c.value) (hbracket : c ≠ .plain 91) (t : Text) :
    goesOn (c.form true ++ t) = true := by
  obtain ⟨x, w, hform, hmeta, -, -, hopen⟩ := exists_form h
  rw [hform]
  unfold goesOn
  split
  · next heq =>
    cases heq
    exact absurd (hopen rfl) hbracket
  · next heq =>
    cases heq
    exact absurd (hmeta (by decide)) (by decide)
  · rfl

/-- A range does not end in `\0`: there is nothing before it. -/
theorem Piece.IsSound.last_ne_null (h : (Piece.range r).IsSound) (hsingle : r.isSingle = false) : r.last ≠ .null := by
  intro hlast
  have hfirst := h.1.1
  have hle := Int32.le_iff_toInt_le.1 h.2.2
  refine of_decide_eq_false hsingle (Int32.toInt_inj.1 ?_)
  rw [hlast] at hle ⊢
  have : Character.null.value.toInt = 0 := rfl
  omega

/-- **The end of a range is read as what it is,** unless it is a bare `[`. -/
theorem span?_tail (hr : (Piece.range r).IsSound) (ht : IsApart t) (hbracket : (Piece.range r).endsInBracket = false)
    (n : Int32) :
    span? limit n (tail r ++ t) =
      if r.isSingle ∨ n ≤ number limit r.last then some (reading limit n r, t) else none := by
  unfold tail reading
  cases hsingle : r.isSingle with
  | true => exact span?_of_isApart ht
  | false =>
    have hbracket : r.last ≠ .plain 91 := fun hlast =>
      absurd (Piece.endsInBracket_range.2 ⟨hsingle, hlast⟩) (by rw [hbracket]; decide)
    have hsign : sign? limit (r.last.form true ++ t) = some (.char (number limit r.last), t) :=
      sign?_form hr.2.1 fun heq => absurd heq (hr.last_ne_null hsingle)
    show span? limit n (.char '-' :: (r.last.form true ++ t)) = _
    simp only [span?, goesOn_form hr.2.1 hbracket, hsign, if_true, Bool.false_eq_true, false_or, if_false]

/-- A range up to `[` is read as its first character, and the rest begins a subtraction. -/
theorem span?_tail_of_bracket (h : (Piece.range r).endsInBracket = true) (limit : Nat) (n : Int32) (t : Text) :
    ∃ v, span? limit n (tail r ++ t) = some (.span n n, .char '-' :: .char '[' :: v) := by
  obtain ⟨hsingle, hlast⟩ := Piece.endsInBracket_range.1 h
  refine ⟨t, ?_⟩
  rw [tail, hsingle, hlast]
  rfl

/-- What a piece is read as, if it is read at all: a range may be inverted once its codes are cut down. -/
def Piece.read? (limit : Nat) : Piece → Option Extent
  | range r =>
    if r.isSingle ∨ number limit r.first ≤ number limit r.last then
      some (reading limit (number limit r.first) r)
    else none
  | charClass c => some (.charClass (plainClass c))

/-- The first character of a range is read as what it is, unless `\0` takes digits. -/
theorem item?_range (hr : (Piece.range r).IsSound)
    (hnull : (Piece.range r).isNull = true → ∀ g ∈ t.head?, isOctal g = false) :
    item? limit ((Piece.range r).form ++ t) = span? limit (number limit r.first) (tail r ++ t) := by
  have hsign : sign? limit (r.first.form true ++ (tail r ++ t)) = some (.char (number limit r.first), tail r ++ t) := by
    refine sign?_form hr.1 fun hfirst g hg => ?_
    unfold tail at hg
    cases hsingle : r.isSingle with
    | true =>
      rw [hsingle] at hg
      exact hnull (Piece.isNull_range.2 ⟨hsingle, hfirst⟩) g hg
    | false =>
      rw [hsingle] at hg
      cases hg
      rfl
  simp only [item?, form_range, append_assoc, hsign]

/-- **A piece is read as one item,** if `\0` takes no digits and no range ends in a bracket. -/
theorem item?_append (hp : p.IsSound) (ht : IsApart t) (hbracket : p.endsInBracket = false)
    (hnull : p.isNull = true → ∀ g ∈ t.head?, isOctal g = false) :
    item? limit (p.form ++ t) = (p.read? limit).map (·, t) := by
  cases p with
  | charClass => simp only [item?, Piece.form, sign?_class hp, Piece.read?, map_some]
  | range =>
    rw [item?_range hp hnull, span?_tail hp ht hbracket, Piece.read?]
    split <;> rfl

/-- **The item is the right one if no code is cut down,** and only then. -/
theorem Piece.read?_eq_some_item_iff (hp : p.IsSound) :
    p.read? limit = some p.item ↔ ∀ c ∈ p.written, number limit c = c.value := by
  cases p with
  | charClass => exact ⟨fun _ => nofun, fun _ => rfl⟩
  | range r =>
    cases hsingle : r.isSingle with
    | true =>
      have hvalue : r.first.value = r.last.value := of_decide_eq_true hsingle
      simp [read?, reading, item, written, hsingle, hvalue]
    | false =>
      have hle : number limit r.first = r.first.value ∧ number limit r.last = r.last.value →
          number limit r.first ≤ number limit r.last := by
        rintro ⟨hfirst, hlast⟩
        rw [hfirst, hlast]
        exact hp.2.2
      simpa [read?, reading, item, written, hsingle] using hle

/-- The digits that `\0` takes belong to one or two pieces; of the last of them, all but the first character is left. -/
theorem exists_drop_octal (hps : ∀ p ∈ ps, p.IsSound) (ht : IsEnd t) (hg : isOctal g = true)
    (h : (forms ps ++ t).head? = some g) : ∃ k r qs, ps.drop k = .range r :: qs ∧
      (forms ps ++ t).drop (((forms ps ++ t).take 2).takeWhile isOctal).length = tail r ++ (forms qs ++ t) := by
  obtain ⟨u, hu⟩ : ∃ u, forms ps ++ t = g :: u := List.head?_eq_some_iff.1 h
  obtain ⟨r, qs, rfl, hrest⟩ := exists_of_isOctal hps ht hg hu
  rw [hu, take_succ_cons, takeWhile_cons_of_pos hg, length_cons, drop_succ_cons]
  cases hsecond : u with
  | nil => exact ⟨0, r, qs, rfl, by rw [← hrest, hsecond]; rfl⟩
  | cons g' u' =>
    cases hg' : isOctal g' with
    | false =>
      refine ⟨0, r, qs, rfl, ?_⟩
      rw [take_succ_cons, takeWhile_cons_of_neg (by rw [hg']; decide), ← hrest, hsecond]
      rfl
    | true =>
      -- a second digit is not in the tail of a range, which begins with a hyphen
      have htail : tail r = [] := by
        unfold tail at hrest ⊢
        split at hrest
        · next hsingle => rw [if_pos hsingle]
        · rw [hsecond] at hrest
          cases hrest
          cases hg'
      rw [htail, List.nil_append, hsecond] at hrest
      obtain ⟨r', qs', rfl, hrest'⟩ :=
        exists_of_isOctal (fun p hp => hps p (mem_cons_of_mem _ hp)) ht hg' hrest.symm
      refine ⟨1, r', qs', rfl, ?_⟩
      rw [take_succ_cons, takeWhile_cons_of_pos hg', ← hrest']
      rfl

theorem Piece.form_of_isNull (h : p.isNull = true) : p.form = Character.null.form true := by
  cases p with
  | charClass => cases h
  | range =>
    obtain ⟨hsingle, hfirst⟩ := isNull_range.1 h
    rw [form_range, tail, if_pos hsingle, hfirst, List.append_nil]

/-- **What is read where `\0` takes digits:** several pieces, or the pieces up to a subtraction. -/
theorem item?_of_digits (hps : ∀ p ∈ ps, p.IsSound) (ht : IsEnd t) (hnull : p.isNull = true)
    (hhead : (forms ps ++ t).head? = some g) (hg : isOctal g = true)
    (h : item? limit (p.form ++ (forms ps ++ t)) = some (x, u)) :
    ∃ k < ps.length, u = forms (ps.drop (k + 1)) ++ t ∨ ∃ v, u = .char '-' :: .char '[' :: v := by
  obtain ⟨k, r, qs, hdrop, hrest⟩ := exists_drop_octal hps ht hg hhead
  have hlt : k < ps.length := by
    by_contra hge
    rw [drop_eq_nil_of_le (by omega)] at hdrop
    cases hdrop
  have hqs : qs = ps.drop (k + 1) := by rw [← tail_drop, hdrop, tail_cons]
  obtain ⟨hr, hsound⟩ := forall_mem_cons.1 fun q hq => hps q (mem_of_mem_drop (hdrop ▸ hq))
  obtain ⟨n, hsign⟩ := sign?_null limit (forms ps ++ t)
  rw [Piece.form_of_isNull hnull] at h
  simp only [item?, hsign, hrest] at h
  refine ⟨k, hlt, ?_⟩
  cases hbracket : (Piece.range r).endsInBracket with
  | false =>
    rw [span?_tail hr (isApart_forms hsound ht) hbracket] at h
    split at h
    · cases h
      exact .inl (by rw [hqs])
    · cases h
  | true =>
    obtain ⟨v, hspan⟩ := span?_tail_of_bracket hbracket limit n (forms qs ++ t)
    rw [hspan] at h
    cases h
    exact .inr ⟨v, rfl⟩

/-- **What one item can be read from:** one piece in full, several pieces, or the pieces up to a subtraction. -/
theorem item?_cases (hp : p.IsSound) (hps : ∀ p ∈ ps, p.IsSound) (ht : IsEnd t)
    (h : item? limit (forms (p :: ps) ++ t) = some (x, u)) :
    (u = forms ps ++ t ∧ p.read? limit = some x ∧ p.endsInBracket = false ∧
        (p.isNull = true → ∀ q ∈ ps.head?, q.beginsWithDigit = false)) ∨
      (∃ k < ps.length, u = forms (ps.drop (k + 1)) ++ t) ∨
      ∃ v, u = .char '-' :: .char '[' :: v ∧ (ps = [] → x ≠ p.item) := by
  rw [forms_cons, append_assoc] at h
  by_cases hnull : p.isNull = true → ∀ g ∈ (forms ps ++ t).head?, isOctal g = false
  · cases hbracket : p.endsInBracket with
    | false =>
      rw [item?_append hp (isApart_forms hps ht) hbracket hnull] at h
      obtain ⟨y, hy, heq⟩ := map_eq_some_iff.1 h
      cases heq
      refine .inl ⟨rfl, hy, rfl, fun hp q hq => ?_⟩
      obtain ⟨qs, rfl⟩ := List.head?_eq_some_iff.1 hq
      obtain ⟨c, w, hform, -, hoctal⟩ := (hps q mem_cons_self).exists_form
      rw [← hoctal]
      exact hnull hp (.char c) (by rw [forms_cons, hform]; rfl)
    | true =>
      cases p with
      | charClass => cases hbracket
      | range r =>
        obtain ⟨v, hspan⟩ := span?_tail_of_bracket hbracket limit (number limit r.first) (forms ps ++ t)
        rw [item?_range hp hnull, hspan] at h
        cases h
        refine .inr (.inr ⟨v, rfl, fun _ heq => ?_⟩)
        have heq := Extent.span.inj heq
        exact of_decide_eq_false (Piece.endsInBracket_range.1 hbracket).1 (heq.1.symm.trans heq.2)
  · simp only [Classical.not_imp, not_forall, Bool.not_eq_false] at hnull
    obtain ⟨hnull, g, hhead, hg⟩ := hnull
    obtain ⟨k, hlt, hu | ⟨v, hv⟩⟩ := item?_of_digits hps ht hnull hhead hg h
    · exact .inr (.inl ⟨k, hlt, hu⟩)
    · refine .inr (.inr ⟨v, hv, ?_⟩)
      rintro rfl
      exact absurd hlt (Nat.not_lt_zero k)

/-! ### Reading the levels -/

variable {fuel depth : Nat} {negated : Bool} {l : Layer} {ls : List Layer}

theorem addItem_eq_cons {ls' : List Layer} (h : addItem x ls' = l :: ls) :
    ∃ items, ls' = ⟨l.negated, items⟩ :: ls ∧ l.items = x :: items := by
  cases ls' with
  | nil => cases h
  | cons =>
    cases h
    exact ⟨_, rfl, rfl⟩

/-- A level goes on with an item where a piece stands. -/
theorem levels?_forms (hp : p.IsSound) (t : Text) : levels? limit (fuel + 1) depth negated (forms (p :: ps) ++ t) =
      (item? limit (forms (p :: ps) ++ t)).bind fun x => (levels? limit fuel depth negated x.2).map (addItem x.1) := by
  rw [levels?]
  · exact fun _ => forms_ne_cons hp (by decide) (by decide)
  · exact fun _ => forms_ne_cons hp (by decide) (by decide)

/-- Nothing is read of a level once its end is reached. -/
theorem items_eq_nil (ht : IsEnd t) (h : levels? limit fuel depth negated t = some (l :: ls)) : l = ⟨negated, []⟩ := by
  cases fuel with
  | zero => cases h
  | succ =>
    cases ht with
    | close =>
      rw [levels?] at h
      split at h
      · cases h
        rfl
      · cases h
    | subtraction =>
      rw [levels?] at h
      obtain ⟨ls', -, heq⟩ := map_eq_some_iff.1 h
      cases heq
      rfl

section

variable (hps : ∀ p ∈ ps, p.IsSound) (ht : IsEnd t)

include hps ht

/-- **No level has more items than pieces are written in it.** -/
theorem length_items_le
    (h : levels? limit fuel depth negated (forms ps ++ t) = some (l :: ls)) : l.items.length ≤ ps.length := by
  induction fuel generalizing ps l with
  | zero => cases h
  | succ fuel ih =>
    cases ps with
    | nil => rw [items_eq_nil ht h]; exact Nat.le_refl 0
    | cons p ps =>
      obtain ⟨hp, hps⟩ := forall_mem_cons.1 hps
      rw [levels?_forms hp] at h
      obtain ⟨⟨x, u⟩, hitem, h⟩ := bind_eq_some_iff.1 h
      obtain ⟨ls', hrest, hadd⟩ := map_eq_some_iff.1 h
      obtain ⟨items, rfl, hitems⟩ := addItem_eq_cons hadd
      rw [hitems, length_cons, length_cons, Nat.succ_le_succ_iff]
      rcases item?_cases hp hps ht hitem with ⟨rfl, -⟩ | ⟨k, -, rfl⟩ | ⟨v, rfl, -⟩
      · exact ih hps hrest
      · calc items.length
          _ ≤ (ps.drop (k + 1)).length := ih (fun q hq => hps q (mem_of_mem_drop hq)) hrest
          _ ≤ ps.length := (drop_sublist ..).length_le
      · have hnil := items_eq_nil (.subtraction v) hrest
        cases hnil
        exact Nat.zero_le _

/-- **Pieces that are read as what they are were not mistaken,** and what follows is read from where they end. -/
theorem isUnmistaken_of_levels?
    (h : levels? limit fuel depth negated (forms ps ++ t) = some (⟨negated, ps.map Piece.item⟩ :: ls)) :
    IsUnmistaken limit ps ∧ ∃ fuel, levels? limit fuel depth negated t = some (⟨negated, []⟩ :: ls) := by
  induction ps generalizing fuel with
  | nil => exact ⟨⟨nofun, nofun, .nil⟩, fuel, h⟩
  | cons p ps ih =>
    cases fuel with
    | zero => cases h
    | succ =>
      obtain ⟨hp, hps⟩ := forall_mem_cons.1 hps
      rw [levels?_forms hp] at h
      obtain ⟨⟨x, u⟩, hitem, h⟩ := bind_eq_some_iff.1 h
      obtain ⟨ls', hrest, hadd⟩ := map_eq_some_iff.1 h
      obtain ⟨items, rfl, hitems⟩ := addItem_eq_cons hadd
      rw [map_cons] at hitems
      obtain ⟨rfl, rfl⟩ := List.cons.inj hitems
      rcases item?_cases hp hps ht hitem with ⟨rfl, hread, hbracket, hnull⟩ | ⟨k, hk, rfl⟩ | ⟨v, rfl, hne⟩
      · obtain ⟨hrest, hfollow⟩ := ih hps hrest
        exact ⟨⟨forall_mem_cons.2 ⟨(Piece.read?_eq_some_item_iff hp).1 hread, hrest.octal⟩,
          forall_mem_cons.2 ⟨hbracket, hrest.bracket⟩,
          isChain_cons.2 ⟨fun q hq hp => hnull hp q hq, hrest.null⟩⟩, hfollow⟩
      · -- several pieces went into one item, and there are too few of them left
        have hle := length_items_le (fun q hq => hps q (mem_of_mem_drop hq)) ht hrest
        rw [length_map, length_drop] at hle
        omega
      · have hnil := items_eq_nil (.subtraction v) hrest
        exact absurd rfl (hne (map_eq_nil_iff.1 (Layer.mk.inj hnil).2))

/-- **Pieces that cannot be mistaken are read as what they are.** -/
theorem levels?_of_isUnmistaken (hclear : IsUnmistaken limit ps)
    (h : levels? limit fuel depth negated t = some (⟨negated, []⟩ :: ls)) :
    levels? limit (fuel + ps.length) depth negated (forms ps ++ t) = some (⟨negated, ps.map Piece.item⟩ :: ls) := by
  induction ps with
  | nil => exact h
  | cons p ps ih =>
    obtain ⟨hp, hps⟩ := forall_mem_cons.1 hps
    obtain ⟨hoctal, hoctals⟩ := forall_mem_cons.1 hclear.octal
    obtain ⟨hbracket, hbrackets⟩ := forall_mem_cons.1 hclear.bracket
    obtain ⟨hnull, hnulls⟩ := isChain_cons.1 hclear.null
    have hdigits : p.isNull = true → ∀ g ∈ (forms ps ++ t).head?, isOctal g = false := by
      intro hp g hg
      by_contra hoctal
      obtain ⟨u, hu⟩ := List.head?_eq_some_iff.1 hg
      obtain ⟨r, qs, rfl, -⟩ := exists_of_isOctal hps ht (Bool.of_not_eq_false hoctal) hu
      obtain ⟨c, w, hform, -, hdigit⟩ := (hps _ mem_cons_self).exists_form
      rw [forms_cons, hform] at hu
      cases hu
      exact hoctal (hdigit.trans (hnull _ rfl hp))
    have hitem : item? limit (forms (p :: ps) ++ t) = some (p.item, forms ps ++ t) := by
      rw [forms_cons, append_assoc, item?_append hp (isApart_forms hps ht) hbracket hdigits,
        (Piece.read?_eq_some_item_iff hp).2 hoctal]
      rfl
    rw [length_cons, ← Nat.add_assoc, levels?_forms hp, hitem, bind_some,
      ih hps ⟨hoctals, hbrackets, hnulls⟩]
    rfl

end

end RegexBuilder.SetText
