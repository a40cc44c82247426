/-
# Sets that are read back

A set is rendered and its text is read again. It comes out as the set, with every range and every member in its place,
exactly if nothing in it can be mistaken (`Graph.reads_back_iff`). The text stands in brackets, unless the set comes
down to one character or class; then that is written as it is outside a set.
-/

import RegexBuilder.Proofs.Blankness
import RegexBuilder.Proofs.SetContents

namespace RegexBuilder

open List Option
namespace SetText

variable {limit : Nat} {negated : Bool} {c : Character} {p : Piece} {ps qs : List Piece} {t u : Text}

/-! ### Sets in brackets -/

/-- What follows the pieces of a set from which `qs` are subtracted. -/
def ending (qs : List Piece) : Text := if qs.isEmpty then "]" else "-[" ++ forms qs ++ "]]"

/-- The set that includes `ps` and from which `qs` are subtracted, in brackets. -/
def bracket (negated : Bool) (ps qs : List Piece) : Text :=
  (if negated then "[^" else "[") ++ (forms ps ++ ending qs)

/-- What is to be read from such a set. -/
def levels (negated : Bool) (ps qs : List Piece) : List Layer :=
  ⟨negated, ps.map Piece.item⟩ :: if qs.isEmpty then [] else [⟨false, qs.map Piece.item⟩]

theorem isUnmistaken_nil : IsUnmistaken limit [] := ⟨nofun, nofun, .nil⟩

theorem isEnd_ending (qs : List Piece) : IsEnd (ending qs) := by
  unfold ending
  split
  · exact .close []
  · exact .subtraction _

/-- No piece is taken for the sign of negation. -/
theorem hat_forms (hp : p.IsSound) (t : Text) : hat (forms (p :: ps) ++ t) = (false, forms (p :: ps) ++ t) := by
  unfold hat
  split
  · next heq => exact absurd heq (forms_ne_cons hp (by decide) (by decide))
  · rfl

theorem length_le_length_forms (hps : ∀ p ∈ ps, p.IsSound) : ps.length ≤ (forms ps).length := by
  induction ps with
  | nil => exact Nat.le_refl 0
  | cons p ps ih =>
    obtain ⟨hp, hps⟩ := forall_mem_cons.1 hps
    obtain ⟨x, w, hform, -⟩ := hp.exists_form
    have := ih hps
    rw [forms_cons, hform, length_append, length_cons, length_cons]
    omega

theorem length_lt_length_ending (hqs : ∀ q ∈ qs, q.IsSound) : qs.length < (ending qs).length := by
  cases qs with
  | nil => decide
  | cons q qs =>
    have hforms := length_le_length_forms hqs
    show _ < (("-[" ++ forms (q :: qs) ++ "]]" : Text)).length
    rw [length_append, length_append]
    have : ("-[" : Text).length = 2 := rfl
    omega

/-- A subtraction is read one level deeper. -/
theorem levels?_subtraction (hp : p.IsSound) (ps : List Piece) (limit fuel : Nat) (negated : Bool) :
    levels? limit (fuel + 1) 0 negated (ending (p :: ps)) =
      (levels? limit fuel 1 false (forms (p :: ps) ++ "]]")).map (⟨negated, []⟩ :: ·) := by
  show levels? limit (fuel + 1) 0 negated (.char '-' :: .char '[' :: (forms (p :: ps) ++ "]]")) = _
  rw [levels?, hat_forms hp]

/-- What is subtracted is read if it cannot be mistaken. -/
theorem levels?_ending (hqs : ∀ q ∈ qs, q.IsSound) (h : IsUnmistaken limit qs) {fuel : Nat}
    (hfuel : qs.length + 2 ≤ fuel) : levels? limit fuel 0 negated (ending qs) = some (levels negated [] qs) := by
  obtain ⟨fuel, rfl⟩ := Nat.exists_eq_add_of_le hfuel
  cases qs with
  | nil =>
    rw [Nat.add_comm]
    rfl
  | cons q qs =>
    have hend : IsEnd "]]" := .close _
    have hclose : levels? limit (fuel + 1) 1 false "]]" = some [⟨false, []⟩] := rfl
    have hfuel : (q :: qs).length + 2 + fuel = fuel + 1 + (q :: qs).length + 1 := by omega
    rw [hfuel, levels?_subtraction (forall_mem_cons.1 hqs).1, levels?_of_isUnmistaken hqs hend h hclose]
    rfl

theorem isUnmistaken_of_ending (hqs : ∀ q ∈ qs, q.IsSound) {fuel : Nat}
    (h : levels? limit fuel 0 negated (ending qs) = some (levels negated [] qs)) : IsUnmistaken limit qs := by
  cases qs with
  | nil => exact isUnmistaken_nil
  | cons =>
    cases fuel with
    | zero => cases h
    | succ =>
      rw [levels?_subtraction (forall_mem_cons.1 hqs).1] at h
      obtain ⟨ls, hls, heq⟩ := map_eq_some_iff.1 h
      cases heq
      exact (isUnmistaken_of_levels? hqs (.close _) hls).1

/-- A text in brackets is read as levels, with a step for every glyph and one more. -/
theorem read?_bracket (hp : p.IsSound) (limit : Nat) (negated : Bool) (ps qs : List Piece) :
    ∃ fuel, (forms (p :: ps) ++ ending qs).length < fuel ∧
      read? limit (bracket negated (p :: ps) qs) = levels? limit fuel 0 negated (forms (p :: ps) ++ ending qs) := by
  cases negated with
  | true => exact ⟨(forms (p :: ps) ++ ending qs).length + 2, by omega, rfl⟩
  | false =>
    refine ⟨(forms (p :: ps) ++ ending qs).length + 1, by omega, ?_⟩
    show levels? limit _ 0 (hat (forms (p :: ps) ++ ending qs)).1 (hat (forms (p :: ps) ++ ending qs)).2 = _
    rw [hat_forms hp]
    rfl

/-- **A set in brackets is read as itself if nothing in it can be mistaken,** and only then. -/
theorem read?_bracket_iff (hps : ∀ p ∈ ps, p.IsSound) (hqs : ∀ q ∈ qs, q.IsSound) (hne : ps ≠ []) :
    read? limit (bracket negated ps qs) = some (levels negated ps qs) ↔
      IsUnmistaken limit ps ∧ IsUnmistaken limit qs := by
  obtain ⟨p, ps, rfl⟩ := exists_cons_of_ne_nil hne
  obtain ⟨fuel, hfuel, hread⟩ := read?_bracket (forall_mem_cons.1 hps).1 limit negated ps qs
  rw [hread]
  constructor
  · intro h
    obtain ⟨hclear, fuel, hrest⟩ := isUnmistaken_of_levels? hps (isEnd_ending qs) h
    exact ⟨hclear, isUnmistaken_of_ending hqs hrest⟩
  · rintro ⟨hclear, hclear'⟩
    have hlength : (p :: ps).length + (qs.length + 2) ≤ fuel := by
      have hps := length_le_length_forms hps
      have hqs := length_lt_length_ending hqs
      rw [length_append] at hfuel
      omega
    obtain ⟨k, rfl⟩ := Nat.exists_eq_add_of_le' hlength
    rw [Nat.add_comm (p :: ps).length, ← Nat.add_assoc]
    exact levels?_of_isUnmistaken hps (isEnd_ending qs) hclear (levels?_ending hqs hclear' (by omega))

/-! ### Outside a set -/

theorem read?_of_sign? {s : Sign} (h : sign? limit (.char '\\' :: t) = some (s, []))
    (ht : isNoSign t = false) : read? limit (.char '\\' :: t) = some [⟨false, [s.item]⟩] := by
  have h : escape? limit t = some (s, []) := h
  show (if isNoSign t then none else alone? (escape? limit t)) = _
  rw [ht, if_neg Bool.false_ne_true, h]
  rfl

theorem isNoSign_of_length (h : 1 < t.length) : isNoSign t = false := by
  cases t with
  | nil => rfl
  | cons g t =>
    cases t with
    | nil => exact absurd h (Nat.lt_irrefl 1)
    | cons => rfl

/-- **A character is read as itself outside a set.** -/
theorem read?_form (h : IsScalar c.value) :
    read? limit (c.form false) = some [⟨false, [.span (number limit c) (number limit c)]⟩] := by
  have hescape : ∀ {t}, c.form true = .char '\\' :: t → isNoSign t = false →
      read? limit (.char '\\' :: t) = some [⟨false, [.span (number limit c) (number limit c)]⟩] := by
    intro t hform ht
    refine read?_of_sign? (s := .char (number limit c)) ?_ ht
    rw [← hform, ← List.append_nil (c.form true)]
    exact sign?_form h fun _ _ => nofun
  cases c with
  | plain n =>
    have hn : Int32.ofNat (Glyph.ofCode n).read.toNat = n := toNat_read_ofCode h
    show read? limit (escapeChar literalMeta (Glyph.ofCode n).read) = some [⟨false, [.span n n]⟩]
    generalize (Glyph.ofCode n).read = x at hn
    subst hn
    unfold escapeChar
    split
    · next hx =>
      have hsign : ∀ x ∈ literalMeta, isNoSign [.char x] = false := all_iff_forall_prop.1 (by decide)
      exact read?_of_sign? (escape?_of_mem (.inl hx) []) (hsign x hx)
    · next hx =>
      have hspecial : ∀ x ∈ special, x ∈ literalMeta := all_iff_forall_prop.1 (by decide)
      unfold read?
      split
      · next heq => cases heq; exact absurd (by decide) hx
      · next heq => cases heq; exact absurd (by decide) hx
      · next heq =>
        cases heq
        rw [if_neg fun hmem => hx (hspecial x hmem)]
      · next hne => exact absurd rfl (hne x)
  | backspace => rfl
  | null | bell | formFeed | newLine | carriageReturn | tab | verticalTab | controlLetter => exact hescape rfl rfl
  | hexCode | unicodeCode =>
    exact hescape rfl (isNoSign_of_length (Nat.succ_lt_succ (length_pos_iff.2 (Text.ofNatBase_ne_nil _ _ _))))
  | octalCode n =>
    have hlength : (Text.ofNatBase 8 3 n).length = 3 := Text.length_ofNatBase (by decide) (by decide) n.isLt
    exact hescape rfl (isNoSign_of_length (Nat.lt_of_lt_of_eq (by decide) hlength.symm))

/-- **A class is read as itself outside a set.** -/
theorem read?_class {c : CharClass} (h : IsSoundClass c) :
    read? limit c.form = some [⟨false, [.charClass (plainClass c)]⟩] := by
  have hsign : sign? limit (c.form ++ []) = some (.charClass (plainClass c), []) := sign?_class h []
  rw [List.append_nil] at hsign
  obtain ⟨kind, name⟩ := c
  cases kind with
  | undeclared code => exact absurd rfl (h.kind code)
  | word | notWord | digit | notDigit | space | notSpace => rfl
  | category | notCategory => exact read?_of_sign? hsign rfl

theorem Piece.read?_of_isSingle {r : Range Character} (h : r.isSingle = true) :
    (range r).read? limit = some (.span (number limit r.first) (number limit r.first)) := by
  rw [read?, reading, h, if_pos (.inl rfl)]
  rfl

theorem Piece.endsInBracket_of_isSingle {r : Range Character} (h : r.isSingle = true) :
    (range r).endsInBracket = false := by
  rw [endsInBracket, written, h]
  rfl

/-- A piece that cannot end in a bracket and stands alone is mistaken only for its code. -/
theorem isUnmistaken_singleton (hp : p.IsSound) (hbracket : p.endsInBracket = false) :
    IsUnmistaken limit [p] ↔ p.read? limit = some p.item := by
  rw [Piece.read?_eq_some_item_iff hp]
  exact ⟨fun h => h.octal p (mem_singleton.2 rfl), fun h => ⟨forall_mem_singleton.2 h,
    forall_mem_singleton.2 hbracket, .singleton p⟩⟩

theorem isBlank_of_isCategoryGlyph {c : Char} (h : isCategoryGlyph (.char c) = true) : isBlank c = false := by
  have hblank : ∀ n < 128, isCategoryGlyph (.char (Char.ofNat n)) → isBlank (Char.ofNat n) = false := by decide
  have hlt : c.toNat < 128 := by
    have h : ((c.isUpper || c.isLower || c.isDigit) || decide (c = '-') || decide (c = '_')) = true := h
    simp only [Bool.or_eq_true, decide_eq_true_iff] at h
    rcases h with (((h | h) | h) | rfl) | rfl
    · have h : 'A' ≤ c ∧ c ≤ 'Z' := of_decide_eq_true h
      exact Nat.lt_of_le_of_lt h.2 (by decide)
    · have h : c ≤ 'z' := of_decide_eq_true (Bool.and_eq_true_iff.1 h).2
      exact Nat.lt_of_le_of_lt h (by decide)
    · have h : c ≤ '9' := of_decide_eq_true (Bool.and_eq_true_iff.1 h).2
      exact Nat.lt_of_le_of_lt h (by decide)
    · decide
    · decide
  rw [← Char.ofNat_toNat c] at h ⊢
  exact hblank _ hlt h

/-- A category that has passed its check has a name. -/
theorem IsSoundClass.isNameless_eq_false {c : CharClass} (h : IsSoundClass c) : c.isNameless = false := by
  by_contra hnameless
  have hnameless := Bool.of_not_eq_false hnameless
  simp only [CharClass.isNameless, Bool.and_eq_true, Bool.or_eq_true, decide_eq_true_iff] at hnameless
  have hname := h.name hnameless.1
  have hglyphs := isCategoryGlyph_of_mem hname
  cases hcons : c.name with
  | nil =>
    rw [hcons] at hname
    cases hname
  | cons g rest =>
    have hmem : g ∈ c.name := hcons ▸ mem_cons_self
    have hblank := all_eq_true.1 hnameless.2 g hmem
    cases g with
    | stray => cases hblank
    | char => exact absurd hblank (by rw [Glyph.isChar, isBlank_of_isCategoryGlyph (hglyphs _ hmem)]; decide)

end SetText

namespace Graph

open SetText

variable {g : Graph} {i : NodeId} {s : CharacterSet Ref} {limit : Nat}

/-! ### The pieces of a set -/

/-- A range with its characters. -/
def rangePiece? (g : Graph) (r : Range Ref) : Option Piece := (r.mapM? g.character?).map .range

/-- The character or class that a member is. -/
def memberPiece? (g : Graph) (m : Ref) : Option Piece :=
  match g.deref? m with
  | some (.leaf (.character c)) => some (.range ⟨c, c⟩)
  | some (.leaf (.charClass c)) => some (.charClass c)
  | _ => none

/-- Ranges and members in the order in which they are written. -/
def pieces (g : Graph) (ranges : List (Range Ref)) (members : List Ref) : List Piece :=
  ranges.filterMap g.rangePiece? ++ members.filterMap g.memberPiece?

/-- Ranges lie between characters in order, members are characters and classes, and all have passed their checks. -/
structure IsSoundContents (g : Graph) (ranges : List (Range Ref)) (members : List Ref) : Prop where
  range : ∀ r ∈ ranges, ∃ p, g.rangePiece? r = some p ∧ p.IsSound
  member : ∀ m ∈ members, ∃ p, g.memberPiece? m = some p ∧ p.IsSound

theorem isSingle_self (c : Character) : (Range.mk c c).isSingle = true := decide_eq_true rfl

variable {m r : Ref} {p : Piece} {cs : List (Range Character)} {n : Node} {σ : Session} {t : Text}

theorem memberForm?_of_memberPiece? (h : g.memberPiece? m = some p) : g.memberForm? m = some p.form := by
  unfold memberPiece? at h
  split at h
  · next c hc =>
    cases h
    show g.memberForm? m = some (Range.form ⟨c, c⟩)
    rw [memberForm?, hc, Range.form, if_pos (isSingle_self c)]
  · next c hc =>
    cases h
    rw [memberForm?, hc]
    rfl
  · cases h

/-- Sound ranges can be resolved. -/
theorem resolveRanges_of_isSound {ranges : List (Range Ref)}
    (h : ∀ r ∈ ranges, ∃ p, g.rangePiece? r = some p ∧ p.IsSound) :
    ∃ cs, CharacterSet.resolveRanges g ranges = .ok cs ∧ ranges.filterMap g.rangePiece? = cs.map .range := by
  induction ranges with
  | nil => exact ⟨[], rfl, rfl⟩
  | cons r ranges ih =>
    obtain ⟨⟨p, hp, hsound⟩, hranges⟩ := forall_mem_cons.1 h
    obtain ⟨cs, hcs, hpieces⟩ := ih hranges
    obtain ⟨c, hc, rfl⟩ := map_eq_some_iff.1 hp
    have hinverted : c.isInverted = false := decide_eq_false (Int32.not_lt.2 hsound.2.2)
    refine ⟨c :: cs, ?_, by rw [filterMap_cons, hp, hpieces]; rfl⟩
    unfold CharacterSet.resolveRanges at hcs ⊢
    rw [mapM_cons, hcs]
    simp only [hc, hinverted]
    rfl

/-- Sound members have their forms. -/
theorem memberForms_of_isSound {members : List Ref} (h : ∀ m ∈ members, ∃ p, g.memberPiece? m = some p ∧ p.IsSound) :
    ∃ ts, CharacterSet.memberForms g members = .ok ts ∧ ts.flatten = forms (members.filterMap g.memberPiece?) := by
  induction members with
  | nil => exact ⟨[], rfl, rfl⟩
  | cons m members ih =>
    obtain ⟨⟨p, hp, -⟩, hmembers⟩ := forall_mem_cons.1 h
    obtain ⟨ts, hts, hforms⟩ := ih hmembers
    refine ⟨p.form :: ts, ?_, by rw [filterMap_cons, hp, flatten_cons, hforms, forms_cons]⟩
    unfold CharacterSet.memberForms at hts ⊢
    rw [mapM_cons, hts]
    simp only [memberForm?_of_memberPiece? hp]
    rfl

namespace IsSoundContents

variable {ranges : List (Range Ref)} {members : List Ref}

theorem isSound (h : g.IsSoundContents ranges members) : ∀ p ∈ g.pieces ranges members, p.IsSound := by
  intro p hp
  rcases mem_append.1 hp with hp | hp
  · obtain ⟨r, hr, hrp⟩ := mem_filterMap.1 hp
    obtain ⟨q, hq, hsound⟩ := h.range r hr
    cases hq.symm.trans hrp
    exact hsound
  · obtain ⟨m, hm, hmp⟩ := mem_filterMap.1 hp
    obtain ⟨q, hq, hsound⟩ := h.member m hm
    cases hq.symm.trans hmp
    exact hsound

theorem isEmpty_pieces (h : g.IsSoundContents ranges members) :
    (g.pieces ranges members).isEmpty = !(!ranges.isEmpty || !members.isEmpty) := by
  cases ranges with
  | cons r ranges =>
    obtain ⟨p, hp, -⟩ := h.range r mem_cons_self
    rw [pieces, filterMap_cons, hp]
    rfl
  | nil =>
    cases members with
    | nil => rfl
    | cons m members =>
      obtain ⟨p, hp, -⟩ := h.member m mem_cons_self
      rw [pieces, filterMap_nil, filterMap_cons, hp]
      rfl

/-- **The contents of a set are the forms of its pieces.** -/
theorem contents_eq (h : g.IsSoundContents ranges members) {cs : List (Range Character)}
    (hcs : CharacterSet.resolveRanges g ranges = .ok cs) :
    CharacterSet.contents g cs members = .ok (forms (g.pieces ranges members)) := by
  obtain ⟨cs', hcs', hpieces⟩ := resolveRanges_of_isSound h.range
  cases hcs.symm.trans hcs'
  obtain ⟨ts, hts, hforms⟩ := memberForms_of_isSound h.member
  have hranges : (cs.map Range.form).flatten = forms (cs.map .range) := by
    rw [forms, flatMap_map]
    rfl
  rw [CharacterSet.contents, hts, pieces, hpieces, hranges, forms_append, ← hforms]
  rfl

end IsSoundContents

/-- **A set that is written in brackets** is written as its pieces are. -/
theorem bracketed_eq (hbase : g.IsSoundContents s.ranges s.members)
    (hminus : g.IsSoundContents s.subtractedRanges s.subtractedMembers) {ds : List (Range Character)}
    (hcs : CharacterSet.resolveRanges g s.ranges = .ok cs)
    (hds : CharacterSet.resolveRanges g s.subtractedRanges = .ok ds) :
    s.bracketed g cs ds = .ok (bracket s.negated (g.pieces s.ranges s.members)
      (g.pieces s.subtractedRanges s.subtractedMembers)) := by
  have hempty : (g.pieces s.subtractedRanges s.subtractedMembers).isEmpty = !s.hasSubtraction := hminus.isEmpty_pieces
  rw [CharacterSet.bracketed, hbase.contents_eq hcs, hminus.contents_eq hds, bracket, ending, hempty]
  cases s.hasSubtraction <;> cases s.negated <;> simp [bind, Except.bind, pure, Except.pure, append_assoc]

/-- The reference leads to a leaf whose text is read outside a set as `p` would be read inside. -/
def ReadsAs (g : Graph) (limit : Nat) (r : Ref) (p : Piece) : Prop :=
  ∃ l t x, g.deref? r = some (.leaf l) ∧ l.form = .ok t ∧ read? limit t = some [⟨false, [x]⟩] ∧
    p.read? limit = some x ∧ p.endsInBracket = false

/-- A member stands for itself. -/
theorem readsAs_member (h : g.memberPiece? m = some p) (hp : p.IsSound) (limit : Nat) : g.ReadsAs limit m p := by
  unfold memberPiece? at h
  split at h
  · next c hc =>
    cases h
    exact ⟨_, _, _, hc, rfl, read?_form hp.1, Piece.read?_of_isSingle (isSingle_self c),
      Piece.endsInBracket_of_isSingle (isSingle_self c)⟩
  · next c hc =>
    cases h
    exact ⟨_, _, _, hc, by rw [Leaf.form, hp.isNameless_eq_false]; rfl, read?_class hp, rfl, rfl⟩
  · cases h

/-- The first endpoint stands for a range of one character. -/
theorem readsAs_range {r : Range Ref} {c : Range Character} (h : g.rangePiece? r = some (.range c))
    (hc : (Piece.range c).IsSound) (hsingle : c.isSingle = true) (limit : Nat) :
    g.ReadsAs limit r.first (.range c) := by
  obtain ⟨c', hc', heq⟩ := map_eq_some_iff.1 h
  cases heq
  obtain ⟨a, ha, hrest⟩ := bind_eq_some_iff.1 hc'
  obtain ⟨b, -, hrest⟩ := bind_eq_some_iff.1 hrest
  cases hrest
  exact ⟨_, _, _, deref?_of_character? ha, rfl, read?_form hc.1, Piece.read?_of_isSingle hsingle,
    Piece.endsInBracket_of_isSingle hsingle⟩

/-- **What is written in place of a set stands for its only piece.** -/
theorem readsAs_only (hsound : g.IsSoundContents s.ranges s.members)
    (hcs : CharacterSet.resolveRanges g s.ranges = .ok cs) (h : s.only? cs = some r) (limit : Nat) :
    s.negated = false ∧ s.hasSubtraction = false ∧
      ∃ p, g.pieces s.ranges s.members = [p] ∧ g.ReadsAs limit r p := by
  unfold CharacterSet.only? at h
  split at h
  · cases h
  · next hplain =>
    obtain ⟨hnegated, hsub⟩ := Bool.or_eq_false_iff.1 (Bool.of_not_eq_true hplain)
    refine ⟨hnegated, hsub, ?_⟩
    split at h
    · next hranges hmembers =>
      cases h
      obtain ⟨p, hp, hpsound⟩ := hsound.member r (hmembers ▸ mem_singleton.2 rfl)
      refine ⟨p, ?_, readsAs_member hp hpsound limit⟩
      rw [pieces, hranges, hmembers, filterMap_cons, hp]
      rfl
    · next r' c hranges hmembers =>
      split at h
      · next hsingle =>
        cases h
        obtain ⟨p, hp, hpsound⟩ := hsound.range _ (hranges ▸ mem_singleton.2 rfl)
        obtain ⟨cs, hcs', hpieces⟩ := resolveRanges_of_isSound hsound.range
        cases hcs.symm.trans hcs'
        rw [hranges, filterMap_cons, hp] at hpieces
        cases hpieces
        refine ⟨.range c, ?_, readsAs_range hp hpsound hsingle limit⟩
        rw [pieces, hranges, hmembers, filterMap_cons, hp]
        rfl
      · cases h
    · cases h

/-! ### Rendering a set -/

/-- A node that is asked for its text for the first time writes it. -/
theorem asking_of_write {d : Nat} {o : Open} {σ' : Session} (hn : g.node? i = some n) (hi : i ∉ o .text)
    (hk : (σ.kept .text).lookup i = none)
    (h : (n.write g i).run (g.asking true d (o.enter .text i)) σ.out.length σ = .ok ((), σ')) :
    ∃ t, g.asking true (d + 1) o .text (some i) σ = .ok (t, σ'.keep .text i t) := by
  refine ⟨σ'.out.drop σ.out.length, ?_⟩
  rw [asking, level_node hn, visit_new (by rw [if_pos rfl, hk]) hi, Rule.start_apply, Node.rule, Rule.run_bind, h]
  rfl

theorem render_of_write (hn : g.node? i = some n)
    (h : (n.write g i).run (g.asking true (4 * g.size) (Open.none.enter .text i)) 0 {} = .ok ((), σ)) :
    g.render (some i) = .ok ⟨σ.out, σ.subtraction⟩ := by
  have hi : i ∉ Open.none .text := fun hi => nomatch hi
  obtain ⟨t, ht⟩ := asking_of_write (σ := {}) hn hi rfl h
  exact Ask.rendering_eq_ok.2 ⟨t, _, ht, rfl⟩

/-- How a set in brackets is written. -/
def writeBracket (i : NodeId) (s : CharacterSet Ref) (text : Except Objection Text) : Rule Unit := do
  let text ← Rule.ofResult i text
  if s.hasSubtraction then
    Rule.subtract
  Rule.emit text

theorem ofResult_bind {α β : Type} (i : NodeId) (a : α) (k : α → Rule β) : (Rule.ofResult i (.ok a) >>= k) = k a := rfl

section

variable {cs ds : List (Range Character)} (hbase : s.hasBase = true)
  (hcs : CharacterSet.resolveRanges g s.ranges = .ok cs)
  (hds : CharacterSet.resolveRanges g s.subtractedRanges = .ok ds)
include hbase hcs hds

theorem writeSet_of_only {r : Ref} (honly : s.only? cs = some r) : writeSet g i s = Rule.write r := by
  simp only [writeSet, hbase, hcs, hds, ofResult_bind, honly]
  rfl

theorem writeSet_of_bracketed (honly : s.only? cs = none) :
    writeSet g i s = writeBracket i s (s.bracketed g cs ds) := by
  simp only [writeSet, hbase, hcs, hds, ofResult_bind, honly]
  rfl

end

/-- A set in place of which a leaf is written is rendered as that leaf. -/
theorem render_of_only (hn : g.node? i = some (.set s)) (hwrite : writeSet g i s = Rule.write r) {l : Leaf}
    (hr : g.deref? r = some (.leaf l)) (hl : l.form = .ok t) : g.render (some i) = .ok ⟨t, false⟩ := by
  obtain ⟨j, rfl, hj⟩ := bind_eq_some_iff.1 hr
  have hne : j ∉ Open.none.enter .text i .text := by
    rw [Open.enter_self]
    intro hmem
    cases mem_singleton.1 hmem
    cases hn.symm.trans hj
  have hleaf : ∀ asking, (Node.write g j (.leaf l)).run asking 0 {} = .ok ((), ({} : Session).write t) := by
    intro asking
    rw [Node.write, hl]
    rfl
  have hsize : 4 * g.size = 4 * g.size - 1 + 1 := by
    have : 0 < g.size := Nat.lt_of_le_of_lt (Nat.zero_le i) (lt_size_of_node? hn)
    omega
  obtain ⟨u, hu⟩ := asking_of_write (σ := {}) hj hne rfl (hleaf (g.asking true (4 * g.size - 1) _))
  refine render_of_write (σ := (({} : Session).write t).keep .text j u) hn ?_
  rw [Node.write, hwrite, Rule.write, Rule.run_question, hsize, hu]
  rfl

theorem render_of_bracket (hn : g.node? i = some (.set s)) (hwrite : writeSet g i s = writeBracket i s (.ok t)) :
    g.render (some i) = .ok ⟨t, s.hasSubtraction⟩ := by
  cases hsub : s.hasSubtraction with
  | true =>
    refine render_of_write (σ := ({ subtraction := true } : Session).write t) hn ?_
    rw [Node.write, hwrite, writeBracket, hsub]
    rfl
  | false =>
    refine render_of_write (σ := ({} : Session).write t) hn ?_
    rw [Node.write, hwrite, writeBracket, hsub]
    rfl

/-- **A set is rendered, and its text is read as the set exactly if nothing in it can be mistaken.** The ranges and
members come out with their numbers and names and in their order, those that are subtracted apart from the others. -/
theorem reads_back_iff (limit : Nat) (hn : g.node? i = some (.set s)) (hbase : s.hasBase = true)
    (hsound : g.IsSoundContents s.ranges s.members)
    (hminus : g.IsSoundContents s.subtractedRanges s.subtractedMembers) :
    ∃ x, g.render (some i) = .ok x ∧
      (read? limit x.text = some (levels s.negated (g.pieces s.ranges s.members)
          (g.pieces s.subtractedRanges s.subtractedMembers)) ↔
        IsUnmistaken limit (g.pieces s.ranges s.members) ∧
          IsUnmistaken limit (g.pieces s.subtractedRanges s.subtractedMembers)) := by
  obtain ⟨cs, hcs, -⟩ := resolveRanges_of_isSound hsound.range
  obtain ⟨ds, hds, -⟩ := resolveRanges_of_isSound hminus.range
  cases honly : s.only? cs with
  | some =>
    have hwrite := writeSet_of_only (i := i) hbase hcs hds honly
    obtain ⟨hnegated, hsub, p, hp, l, t, x, hl, ht, hread, hx, hbracket⟩ := readsAs_only hsound hcs honly limit
    have hpsound : p.IsSound := hsound.isSound p (hp ▸ mem_singleton.2 rfl)
    have hempty : (g.pieces s.subtractedRanges s.subtractedMembers).isEmpty = !s.hasSubtraction := hminus.isEmpty_pieces
    have hnil : g.pieces s.subtractedRanges s.subtractedMembers = [] := by
      rw [← List.isEmpty_iff, hempty, hsub]
      rfl
    refine ⟨_, render_of_only hn hwrite hl ht, ?_⟩
    rw [hread, hp, hnil, hnegated, and_iff_left isUnmistaken_nil, isUnmistaken_singleton hpsound hbracket, hx]
    show some [Layer.mk false [x]] = some [Layer.mk false [p.item]] ↔ _
    simp
  | none =>
    have hwrite := writeSet_of_bracketed (i := i) hbase hcs hds honly
    rw [bracketed_eq hsound hminus hcs hds] at hwrite
    have hempty : (g.pieces s.ranges s.members).isEmpty = !s.hasBase := hsound.isEmpty_pieces
    refine ⟨_, render_of_bracket hn hwrite, read?_bracket_iff hsound.isSound hminus.isSound ?_⟩
    rw [← isEmpty_eq_false_iff, hempty, hbase]
    rfl

/-- A negated set with a range, `\0`, a bracket, a category and an octal code, from which a range and a class are
subtracted. -/
def punctuation : Graph :=
  ⟨#[.set ⟨[⟨some 1, some 2⟩, ⟨some 3, some 3⟩], [some 4, some 5, some 6], [⟨some 7, some 8⟩], [some 9], true⟩,
    .leaf (.character (.plain 40)), .leaf (.character (.hexCode 47)), .leaf (.character .null),
    .leaf (.character (.plain 93)), .leaf (.charClass ⟨.category, "Lu"⟩),
    .leaf (.character (.octalCode ⟨49, by decide⟩)), .leaf (.character (.plain 45)),
    .leaf (.character (.plain 46)), .leaf (.charClass ⟨.notWord, []⟩)]⟩

theorem reads_back_iff_punctuation :
    punctuation.render (some 0) = .ok ⟨"[^(-\\x2F\\0\\]\\p\x7bLu\x7d\\061-[\\--.\\W]]", true⟩ ∧
      ∃ x, punctuation.render (some 0) = .ok x ∧
        read? 256 x.text = some [⟨true, [.span 40 47, .span 0 0, .span 93 93, .charClass ⟨.category, "Lu"⟩,
          .span 49 49]⟩, ⟨false, [.span 45 46, .charClass ⟨.notWord, []⟩]⟩] := by
  have hsound : punctuation.IsSoundContents [⟨some 1, some 2⟩, ⟨some 3, some 3⟩] [some 4, some 5, some 6] := by
    constructor
    · refine forall_mem_cons.2 ⟨⟨_, rfl, ?_⟩, forall_mem_singleton.2 ⟨_, rfl, ?_⟩⟩
      · exact ⟨by decide, by decide, by decide⟩
      · exact ⟨by decide, by decide, by decide⟩
    · refine forall_mem_cons.2 ⟨⟨_, rfl, ?_⟩,
        forall_mem_cons.2 ⟨⟨_, rfl, ?_⟩, forall_mem_singleton.2 ⟨_, rfl, ?_⟩⟩⟩
      · exact ⟨by decide, by decide, by decide⟩
      · exact ⟨nofun, fun _ => by decide⟩
      · exact ⟨by decide, by decide, by decide⟩
  have hminus : punctuation.IsSoundContents [⟨some 7, some 8⟩] [some 9] := by
    constructor
    · exact forall_mem_singleton.2 ⟨_, rfl, by decide, by decide, by decide⟩
    · exact forall_mem_singleton.2 ⟨_, rfl, nofun, nofun⟩
  refine ⟨by decide +kernel, ?_⟩
  obtain ⟨x, hx, hread⟩ := reads_back_iff 256 (g := punctuation) (i := 0) rfl rfl hsound hminus
  exact ⟨x, hx, hread.2 ⟨⟨by decide, by decide, by decide⟩, by decide, by decide, by decide⟩⟩

/-- A range up to a bracket, and `\0` before a digit. -/
def mistaken : Graph :=
  ⟨#[.set { ranges := [⟨some 2, some 3⟩] }, .set { members := [some 4, some 5] }, .leaf (.character (.plain 65)),
    .leaf (.character (.plain 91)), .leaf (.character .null), .leaf (.character (.plain 49))]⟩

/-- The bracket is taken for the beginning of a subtraction, and the digit for a part of an octal code. -/
theorem mistaken_reads_otherwise :
    (mistaken.IsSoundContents [⟨some 2, some 3⟩] [] ∧ mistaken.render (some 0) = .ok ⟨"[A-[]", false⟩ ∧
      levels false (mistaken.pieces [⟨some 2, some 3⟩] []) [] = [⟨false, [.span 65 91]⟩] ∧
        read? 512 "[A-[]" = none) ∧
    mistaken.IsSoundContents [] [some 4, some 5] ∧ mistaken.render (some 1) = .ok ⟨"[\\01]", false⟩ ∧
      levels false (mistaken.pieces [] [some 4, some 5]) [] = [⟨false, [.span 0 0, .span 49 49]⟩] ∧
        read? 512 "[\\01]" = some [⟨false, [.span 1 1]⟩] := by
  refine ⟨⟨⟨?_, nofun⟩, by decide +kernel⟩, ⟨nofun, ?_⟩, by decide +kernel⟩
  · exact forall_mem_singleton.2 ⟨_, rfl, by decide, by decide, by decide⟩
  · exact forall_mem_cons.2 ⟨⟨_, rfl, by decide, by decide, by decide⟩,
      forall_mem_singleton.2 ⟨_, rfl, by decide, by decide, by decide⟩⟩

end Graph
end RegexBuilder
