/-
# Where a glyph stands

A reader of a pattern stands outside of sets or in one, and right behind a backslash or not: it is in one of four
zones (`Zone`). With the option `x` it ignores blanks, and comments from `#` to the end of the line, but only outside
of sets and not behind a backslash. A text *exposes* something if such a glyph stands there (`Zone.extended_eq_iff`).

Most of what is written leads a reader back to the zone where it began, and exposes nothing (`Zone.Loops`); a literal
and a plain character outside of sets expose exactly what they hold (`Zone.loops_escapeLiteral`). Digits that are kept
apart behind a cut of the output move what stands there, but the reader does not notice (`Text.IsCut.separate`).
-/

import RegexBuilder.Proofs.Opening

namespace RegexBuilder

open List Text
open Session (backslashes separate)

/-- With the option `x`, blanks are ignored, and comments that `#` begins. -/
def Glyph.isIgnored (g : Glyph) : Bool := g.isChar fun c => isBlank c || c = '#'

/-- Where a reader of a pattern stands. -/
inductive Zone where
  | free
  /-- Behind a backslash outside of sets. -/
  | escape
  | set
  /-- Behind a backslash in a set. -/
  | setEscape
deriving DecidableEq, Repr

namespace Zone

/-- The zone behind one more glyph. A set ends at its first `]` that is not escaped. -/
def next : Zone → Glyph → Zone
  | free, .char '\\' => escape
  | free, .char '[' => set
  | free, _ => free
  | escape, _ => free
  | set, .char '\\' => setEscape
  | set, .char ']' => free
  | set, _ => set
  | setEscape, _ => set

/-- The zone behind the text. -/
def after (z : Zone) (t : Text) : Zone := t.foldl next z

/-- Somewhere in the text a glyph is ignored. -/
def exposes : Zone → Text → Bool
  | _, [] => false
  | z, g :: t => z = free && g.isIgnored || (z.next g).exposes t

/-- What is taken in with the option `x`: `none` is the zone of a comment, which ends with the line. -/
def extended : Option Zone → Text → Text
  | _, [] => []
  | none, g :: t => if g = .char '\n' then extended (some free) t else extended none t
  | some z, g :: t =>
    if z = free && g.isIgnored then extended (if g = .char '#' then none else some free) t
    else g :: extended (some (z.next g)) t

/-- The reader stands right behind a backslash that is not escaped itself. -/
def isEscape : Zone → Bool
  | escape | setEscape => true
  | free | set => false

variable {z : Zone} {t u : Text} {b : Bool}

@[simp] theorem after_nil (z : Zone) : z.after [] = z := rfl

@[simp] theorem after_cons (z : Zone) (g : Glyph) (t : Text) : z.after (g :: t) = (z.next g).after t := rfl

/-- Glyphs are read one after the other. -/
theorem after_append (z : Zone) (t u : Text) : z.after (t ++ u) = (z.after t).after u := foldl_append ..

@[simp] theorem exposes_nil (z : Zone) : z.exposes [] = false := rfl

@[simp] theorem exposes_cons (z : Zone) (g : Glyph) (t : Text) :
    z.exposes (g :: t) = (z = free && g.isIgnored || (z.next g).exposes t) := rfl

/-- What is exposed is exposed in the one text or in the other. -/
theorem exposes_append (z : Zone) (t u : Text) : z.exposes (t ++ u) = (z.exposes t || (z.after t).exposes u) := by
  induction t generalizing z with
  | nil => rfl
  | cons g t ih => rw [cons_append, exposes_cons, exposes_cons, after_cons, ih, Bool.or_assoc]

/-- Outside sets only two glyphs lead elsewhere. -/
theorem next_free {g : Glyph} (hslash : g ≠ .char '\\') (hbracket : g ≠ .char '[') : free.next g = free := by
  unfold next
  split
  all_goals first | rfl | contradiction

/-- In sets only two glyphs lead elsewhere. -/
theorem next_set {g : Glyph} (hslash : g ≠ .char '\\') (hbracket : g ≠ .char ']') : set.next g = set := by
  unfold next
  split
  all_goals first | rfl | contradiction

/-! ### The option `x` -/

theorem length_extended_le : ∀ (o : Option Zone) (t : Text), (extended o t).length ≤ t.length
  | none, [] | some _, [] => Nat.le_refl 0
  | none, g :: t => by
    rw [extended]
    split
    · exact (length_extended_le _ t).trans (Nat.le_succ _)
    · exact (length_extended_le _ t).trans (Nat.le_succ _)
  | some z, g :: t => by
    rw [extended]
    split
    · exact (length_extended_le _ t).trans (Nat.le_succ _)
    · exact Nat.succ_le_succ (length_extended_le _ t)

/-- **All of a text is taken in with the option `x` exactly if it exposes nothing.** -/
theorem extended_eq_iff : ∀ {z : Zone} {t : Text}, extended (some z) t = t ↔ z.exposes t = false
  | _, [] => iff_of_true rfl rfl
  | z, g :: t => by
    rw [extended, exposes_cons]
    cases h : (z = free && g.isIgnored : Bool) with
    | true =>
      refine iff_of_false (fun hall => ?_) (by simp)
      have hless := length_extended_le (if g = .char '#' then none else some free) t
      rw [if_pos rfl] at hall
      rw [hall, length_cons] at hless
      omega
    | false => rw [if_neg (by simp), Bool.false_or, List.cons.injEq, and_iff_right rfl, extended_eq_iff]

/-! ### Texts that lead back -/

/-- The text leads a reader from `z` back to `z`, and `b` says whether something of it is ignored. -/
structure Loops (z : Zone) (t : Text) (b : Bool) : Prop where
  after : z.after t = z
  exposes : z.exposes t = b

namespace Loops

theorem nil : z.Loops [] false := ⟨rfl, rfl⟩

theorem append {c : Bool} (ht : z.Loops t b) (hu : z.Loops u c) : z.Loops (t ++ u) (b || c) where
  after := by rw [after_append, ht.after, hu.after]
  exposes := by rw [exposes_append, ht.after, ht.exposes, hu.exposes]

theorem flatten {l : List Text} (h : ∀ t ∈ l, z.Loops t false) : z.Loops l.flatten false := by
  induction l with
  | nil => exact nil
  | cons t l ih =>
    obtain ⟨ht, hl⟩ := forall_mem_cons.1 h
    exact ht.append (ih hl)

end Loops
end Zone

/-! ### Inert texts -/

/-- A glyph that is neither ignored nor changes the zone. -/
def Glyph.isInert (g : Glyph) : Bool := !g.isChar fun c => isBlank c || c ∈ ['#', '\\', '[', ']']

/-- Nothing in the text is ignored or changes the zone. -/
def Text.IsInert (t : Text) : Prop := ∀ g ∈ t, g.isInert = true

instance (t : Text) : Decidable t.IsInert := inferInstanceAs (Decidable (∀ g ∈ t, g.isInert = true))

namespace Glyph

/-- The numbers in the runs of a class, the first of which begins at `start`. -/
def codes : (start : Nat) → List Nat → List Nat
  | start, gap :: run :: rest => List.range' (start + gap) run ++ codes (start + gap + run) rest
  | _, _ => []

/-- The codes of a table are all that is in its runs. -/
theorem mem_codes (start n : Nat) (table : List Nat) (h : inRuns table n = true) : start + n ∈ codes start table := by
  fun_induction inRuns table n generalizing start with
  | case1 gap run rest n ih =>
    rw [Bool.and_eq_true, Bool.or_eq_true, decide_eq_true_iff, decide_eq_true_iff] at h
    by_cases hrun : n < gap + run
    · exact mem_append_left _ (mem_range'_1.2 (by omega))
    · have hrest := ih (start + gap + run) (h.2.resolve_left hrun)
      rw [show start + gap + run + (n - gap - run) = start + n by omega] at hrest
      exact mem_append_right _ hrest
  | case2 => cases h

/-- The numbers of the characters that are not inert. -/
def activeCodes : List Nat := ['#', '\\', '[', ']'].map Char.toNat ++ codes 0 blankRuns

/-- The characters that are not inert are few, so that a class of glyphs is inert if it has none of them. -/
theorem isInert_of_class {p : Glyph → Bool} (hp : ∀ n ∈ activeCodes, p (.char (Char.ofNat n)) = false) {g : Glyph}
    (h : p g = true) : g.isInert = true := by
  cases g with
  | stray => rfl
  | char c =>
    have hnot : c.toNat ∉ activeCodes := fun hc => by
      have hfalse := hp c.toNat hc
      rw [Char.ofNat_toNat, h] at hfalse
      cases hfalse
    have hchar : c ∉ ['#', '\\', '[', ']'] := fun hc => hnot (mem_append_left _ (mem_map_of_mem hc))
    have hblank : isBlank c = false := by
      refine Bool.eq_false_iff.2 fun hblank => hnot (mem_append_right _ ?_)
      have hcode := mem_codes 0 c.toNat blankRuns hblank
      rwa [Nat.zero_add] at hcode
    show (!(isBlank c || decide (c ∈ ['#', '\\', '[', ']']))) = true
    rw [hblank, decide_eq_false hchar]
    rfl

theorem isInert_of_isDigit {g : Glyph} (h : g.isDigit = true) : g.isInert = true :=
  isInert_of_class (all_iff_forall_prop.1 (by decide)) h

theorem isIgnored_eq_false {g : Glyph} (h : g.isInert = true) : g.isIgnored = false := by
  cases g with
  | stray => rfl
  | char c =>
    have h : (isBlank c || decide (c ∈ ['#', '\\', '[', ']'])) = false := Bool.not_eq_true' _ ▸ h
    rw [Bool.or_eq_false_iff, decide_eq_false_iff_not] at h
    show (isBlank c || decide (c = '#')) = false
    rw [h.1, Bool.false_or, decide_eq_false_iff_not]
    exact fun hc => h.2 (mem_cons.2 (.inl hc))

/-- Inert glyphs lead nowhere, unless they are escaped. -/
theorem next_of_isInert {g : Glyph} (h : g.isInert = true) {z : Zone} (hz : z.isEscape = false) : z.next g = z := by
  have hchar : ∀ c ∈ ['#', '\\', '[', ']'], g ≠ .char c := by
    rintro c hc rfl
    have hinert : ∀ c ∈ ['#', '\\', '[', ']'], isInert (.char c) = false := all_iff_forall_prop.1 (by decide)
    rw [hinert c hc] at h
    cases h
  cases z with
  | escape | setEscape => cases hz
  | free => exact Zone.next_free (hchar _ (by decide)) (hchar _ (by decide))
  | set => exact Zone.next_set (hchar _ (by decide)) (hchar _ (by decide))

end Glyph

namespace Text

variable {t u : Text}

theorem IsInert.append (ht : t.IsInert) (hu : u.IsInert) : IsInert (t ++ u) :=
  forall_mem_append.2 ⟨ht, hu⟩

theorem isInert_ofNatBase {base width n : Nat} (hb : 1 < base) (hb' : base ≤ 16) :
    (ofNatBase base width n).IsInert := by
  have hdigit : ∀ d < 16, (Glyph.char (Nat.digitChar d).toUpper).isInert = true := by decide
  intro g hg
  obtain ⟨d, hd, rfl⟩ := exists_of_mem_ofNatBase hb hg
  exact hdigit d (by omega)

theorem isInert_ofInt (n : Int) : (ofInt n).IsInert := by
  have hnat : ∀ n, (ofNat n).IsInert := fun n g hg => Glyph.isInert_of_isDigit (isDigit_of_mem_ofNat hg)
  unfold ofInt
  split
  · exact hnat _
  · exact IsInert.append (by decide) (hnat _)

/-- A name that passes its check is inert. -/
theorem isInert_of_checkName {role : NameRole} {name : Text} (h : checkName role name = .ok ()) : name.IsInert :=
  fun g hg => Glyph.isInert_of_class (p := isNameGlyph) (all_iff_forall_prop.1 (by decide +kernel))
    (isNameGlyph_of_mem h g hg)

theorem isInert_of_checkCategory {name : Text} (h : checkCategory name = .ok ()) : name.IsInert :=
  fun g hg => Glyph.isInert_of_class (p := isCategoryGlyph) (all_iff_forall_prop.1 (by decide))
    (isCategoryGlyph_of_mem h g hg)

end Text

namespace Zone

variable {z : Zone} {t u : Text}

theorem Loops.inert (hz : z.isEscape = false) (h : t.IsInert) : z.Loops t false := by
  induction t with
  | nil => exact nil
  | cons g t ih =>
    obtain ⟨hg, ht⟩ := forall_mem_cons.1 h
    have hnext := Glyph.next_of_isInert hg hz
    refine ⟨by rw [after_cons, hnext, (ih ht).after], ?_⟩
    rw [exposes_cons, hnext, (ih ht).exposes, Glyph.isIgnored_eq_false hg, Bool.and_false]
    rfl

/-- An escape, whatever is escaped, and what belongs to it. -/
theorem Loops.escaped (hz : z.isEscape = false) (g : Glyph) (h : t.IsInert) : z.Loops (.char '\\' :: g :: t) false := by
  have hpair : z.Loops [.char '\\', g] false := by
    cases z with
    | escape | setEscape => cases hz
    | free | set => exact ⟨rfl, rfl⟩
  exact hpair.append (.inert hz h)

/-- An escape of inert glyphs. -/
theorem Loops.slash (hz : z.isEscape = false) (hne : t ≠ []) (h : t.IsInert) : z.Loops (.char '\\' :: t) false := by
  obtain ⟨g, u, rfl⟩ := exists_cons_of_ne_nil hne
  exact .escaped hz g (forall_mem_cons.1 h).2

/-- A set is left where it was entered, and what stands in it is not ignored. -/
theorem Loops.bracketed (h : set.Loops t false) : free.Loops (.char '[' :: t ++ "]") false where
  after := by
    rw [cons_append, after_cons, after_append]
    show (set.after t).after "]" = free
    rw [h.after]
    rfl
  exposes := by
    rw [cons_append, exposes_cons, exposes_append]
    show (false || (set.exposes t || (set.after t).exposes "]")) = false
    rw [h.exposes, h.after]
    rfl

end Zone

/-! ### Leaves -/

namespace Zone

theorem isIgnored_read (g : Glyph) : (Glyph.char g.read).isIgnored = g.isIgnored := by
  cases g with
  | char => rfl
  | stray =>
    show (Glyph.char replacement).isIgnored = false
    decide

/-- **A character outside of sets is exposed if it is ignored:** none of these is escaped. -/
theorem loops_escapeChar (c : Char) : free.Loops (escapeChar literalMeta c) (Glyph.char c).isIgnored := by
  unfold escapeChar
  split
  · next hc =>
    have hnone : ∀ c ∈ literalMeta, (Glyph.char c).isIgnored = false := all_iff_forall_prop.1 (by decide)
    rw [hnone c hc]
    exact .escaped rfl _ (by decide)
  · next hc =>
    have hchar : ∀ d ∈ literalMeta, Glyph.char c ≠ .char d := fun d hd h => hc (Glyph.char.inj h ▸ hd)
    have hnext : free.next (.char c) = free := next_free (hchar _ (by decide)) (hchar _ (by decide))
    refine ⟨hnext, ?_⟩
    rw [exposes_cons, hnext]
    simp

/-- **A literal exposes what is ignored of it.** -/
theorem loops_escapeLiteral (t : Text) : free.Loops (escapeLiteral t) (t.any Glyph.isIgnored) := by
  induction t with
  | nil => exact .nil
  | cons g t ih =>
    have hg := loops_escapeChar g.read
    rw [isIgnored_read] at hg
    exact hg.append ih

end Zone

namespace Character

/-- Only a plain character is not written as an escape; outside of sets a backspace is one in a set. -/
theorem exists_form (c : Character) (inSet : Bool) (hplain : ∀ n, c ≠ plain n) (h : inSet = true ∨ c ≠ backspace) :
    ∃ w, c.form inSet = .char '\\' :: w ∧ w ≠ [] ∧ Text.IsInert w := by
  cases c with
  | plain n => exact absurd rfl (hplain n)
  | null | bell | formFeed | newLine | carriageReturn | tab | verticalTab => exact ⟨_, rfl, by decide, by decide⟩
  | backspace =>
    rcases h with rfl | h
    · exact ⟨_, rfl, by decide, by decide⟩
    · exact absurd rfl h
  | controlLetter n =>
    have hletter : ∀ n : Fin 26, Text.IsInert [.char 'c', .char (Char.ofNat (n + 65))] := by decide
    exact ⟨_, rfl, cons_ne_nil _ _, hletter n⟩
  | hexCode n =>
    have hdigits : (Text.ofNatBase 16 2 n.toNat).IsInert := isInert_ofNatBase (by decide) (by decide)
    exact ⟨_, rfl, cons_ne_nil _ _, forall_mem_cons.2 ⟨by decide, hdigits⟩⟩
  | unicodeCode n =>
    have hdigits : (Text.ofNatBase 16 4 n.toNat).IsInert := isInert_ofNatBase (by decide) (by decide)
    exact ⟨_, rfl, cons_ne_nil _ _, forall_mem_cons.2 ⟨by decide, hdigits⟩⟩
  | octalCode => exact ⟨_, rfl, ofNatBase_ne_nil _ _ _, isInert_ofNatBase (by decide) (by decide)⟩

/-- In a set no character is exposed, and none ends the set. -/
theorem loops_form_set (c : Character) : Zone.set.Loops (c.form true) false := by
  by_cases hplain : ∃ n, c = plain n
  · obtain ⟨n, rfl⟩ := hplain
    show Zone.set.Loops (escapeChar setMeta (Glyph.ofCode n).read) false
    unfold escapeChar
    split
    · exact .escaped rfl _ (by decide)
    · next hc =>
      have hchar : ∀ d ∈ setMeta, Glyph.char (Glyph.ofCode n).read ≠ .char d := fun d hd h => hc (Glyph.char.inj h ▸ hd)
      have hnext : Zone.set.next (.char (Glyph.ofCode n).read) = .set :=
        Zone.next_set (hchar _ (by decide)) (hchar _ (by decide))
      exact ⟨hnext, by rw [Zone.exposes_cons, hnext]; rfl⟩
  · obtain ⟨w, hform, hne, hw⟩ := c.exists_form true (fun n hn => hplain ⟨n, hn⟩) (.inl rfl)
    rw [hform]
    exact .slash rfl hne hw

/-- A character that is ignored if it is written outside of sets. -/
def isIgnored : Character → Bool
  | plain n => (Glyph.char (Glyph.ofCode n).read).isIgnored
  | _ => false

/-- A character exposes itself if it is ignored. -/
theorem loops_form (c : Character) : Zone.free.Loops (c.form false) c.isIgnored := by
  by_cases hplain : ∃ n, c = plain n
  · obtain ⟨n, rfl⟩ := hplain
    exact Zone.loops_escapeChar _
  · have hnot : c.isIgnored = false := by
      cases c with
      | plain n => exact absurd ⟨n, rfl⟩ hplain
      | _ => rfl
    rw [hnot]
    by_cases hback : c = backspace
    · subst hback
      exact (loops_form_set backspace).bracketed
    · obtain ⟨w, hform, hne, hw⟩ := c.exists_form false (fun n hn => hplain ⟨n, hn⟩) (.inr hback)
      rw [hform]
      exact .slash rfl hne hw

end Character

/-- A class is an escape, outside of sets and in one. -/
theorem CharClass.loops_form {c : CharClass}
    (hname : c.kind = .category ∨ c.kind = .notCategory → checkCategory c.name = .ok ()) {z : Zone}
    (hz : z.isEscape = false) : z.Loops c.form false := by
  have hbraces : checkCategory c.name = .ok () → Text.IsInert ("\x7b" ++ c.name ++ "\x7d") := fun hok =>
    (IsInert.append (by decide) (isInert_of_checkCategory hok)).append (by decide)
  unfold form
  cases hkind : c.kind with
  | undeclared => exact .nil
  | category => exact .escaped hz (.char 'p') (hbraces (hname (.inl hkind)))
  | notCategory => exact .escaped hz (.char 'P') (hbraces (hname (.inr hkind)))
  | word | notWord | digit | notDigit | space | notSpace => exact .escaped hz _ (by decide)

namespace CharacterSet

variable {g : Graph} {s : CharacterSet Ref}

variable {ranges : List (Range Character)} {t : Text}

/-- What stands in a set exposes nothing. -/
theorem loops_contents {members : List Ref} (h : contents g ranges members = .ok t)
    (hmembers : ∀ {m u}, g.memberForm? m = some u → Zone.set.Loops u false) : Zone.set.Loops t false := by
  obtain ⟨forms, hforms, h⟩ := bind_eq_ok.1 h
  cases h
  refine (Zone.Loops.flatten fun u hu => ?_).append (.flatten fun u hu => ?_)
  · obtain ⟨r, -, rfl⟩ := mem_map.1 hu
    unfold Range.form
    split
    · exact r.first.loops_form_set
    · exact (r.first.loops_form_set.append (.inert rfl (by decide))).append r.last.loops_form_set
  · obtain ⟨m, -, hmu⟩ := exists_mem_of_forall₂ (mapM_eq_ok_iff.1 hforms).flip hu
    split at hmu
    · cases hmu
    · next hform =>
      cases hmu
      exact hmembers hform

/-- **Nothing in a set between brackets is exposed,** and the set is left again. -/
theorem loops_bracketed {subtracted : List (Range Character)} (h : s.bracketed g ranges subtracted = .ok t)
    (hmembers : ∀ {m u}, g.memberForm? m = some u → Zone.set.Loops u false) : Zone.free.Loops t false := by
  obtain ⟨base, hbase, h⟩ := bind_eq_ok.1 h
  have hopening : ∀ {u : Text}, Zone.set.Loops u false →
      Zone.free.Loops ((if s.negated then ("[^" : Text) else "[") ++ u ++ "]") false := by
    intro u hu
    split
    · exact ((Zone.Loops.inert (t := "^") rfl (by decide)).append hu).bracketed
    · exact hu.bracketed
  cases hsub : s.hasSubtraction with
  | false =>
    simp only [hsub, Bool.false_eq_true, if_false] at h
    cases h
    exact hopening (loops_contents hbase hmembers)
  | true =>
    simp only [hsub, if_true] at h
    obtain ⟨minus, hminus, h⟩ := bind_eq_ok.1 h
    cases h
    -- the bracket that opens what is subtracted stands in the set, and the last one behind it
    have hinner : Zone.set.Loops (base ++ "-[" ++ minus) false :=
      ((loops_contents hbase hmembers).append ⟨rfl, rfl⟩).append (loops_contents hminus hmembers)
    have hlast : Zone.free.Loops "]" false := ⟨rfl, rfl⟩
    have hend : ("]]" : Text) = "]" ++ "]" := rfl
    have htext := (hopening hinner).append hlast
    simpa only [append_assoc, hend, Bool.or_self] using htext

end CharacterSet

/-! ### What stands around patterns -/

theorem Bounds.isInert_suffix (b : Bounds) : b.suffix.IsInert := by
  have hcount : b.count.IsInert := by
    have hint := isInert_ofInt
    unfold count
    split_ifs
    · decide
    · decide
    · decide
    · exact (IsInert.append (by decide) (hint _)).append (by decide)
    · exact (IsInert.append (by decide) (hint _)).append (by decide)
    · exact (((IsInert.append (by decide) (hint _)).append (by decide)).append (hint _)).append (by decide)
  unfold suffix
  split
  · exact hcount
  · exact hcount.append (by decide)

theorem isInert_optionsOpening (g : Graph) (on off : Options) (c : Ref) : (optionsOpening g on off c).IsInert := by
  have hflags : (optionFlags on off).IsInert := fun g hg =>
    Glyph.isInert_of_class (all_iff_forall_prop.1 (by decide)) (isFlag_of_mem_optionFlags hg)
  unfold optionsOpening
  split
  · exact IsInert.append (by decide) hflags
  · exact (IsInert.append (by decide) hflags).append (by decide)

/-! ### Keeping digits apart -/

theorem Zone.isEscape_next (z : Zone) (g : Glyph) :
    (z.next g).isEscape = true ↔ z.isEscape = false ∧ g = .char '\\' := by
  unfold next
  split <;> simp_all [isEscape]

/-- A reader stands behind a backslash that is not escaped exactly if the text ends in the middle of an escape. -/
theorem Zone.isEscape_after {z : Zone} (hz : z.isEscape = false) (t : Text) :
    (z.after t).isEscape = true ↔ ¬ t.IsComplete := by
  induction t using List.reverseRecOn with
  | nil => exact iff_of_false (by simp [hz]) (not_not_intro rfl)
  | append_singleton t g ih =>
    rw [after_append, after_cons, after_nil, isEscape_next, ← Bool.not_eq_true, not_congr ih]
    unfold Text.IsComplete
    rw [backslashes_append]
    by_cases hg : g = .char '\\'
    · subst hg
      have hone : backslashes [.char '\\'] = [Glyph.char '\\'].length := rfl
      rw [if_pos hone, length_singleton, and_iff_left rfl]
      omega
    · have hzero : backslashes [g] = 0 := backslashes_eq_zero (by simpa using Ne.symm hg)
      rw [hzero, length_singleton, if_neg (by decide)]
      exact iff_of_false (fun h => hg h.2) (not_not_intro rfl)

/-- What leads back may stand in place of what else does. -/
theorem Zone.Loops.replace {z : Zone} {a m m' : Text} (hm : (z.after a).Loops m false)
    (hm' : (z.after a).Loops m' false) (rest : Text) : z.after (a ++ (m' ++ rest)) = z.after (a ++ (m ++ rest)) ∧
      z.exposes (a ++ (m' ++ rest)) = z.exposes (a ++ (m ++ rest)) := by
  simp only [after_append, exposes_append, hm.after, hm'.after, hm.exposes, hm'.exposes, and_self]

/-- A reader is free at the place `cut` of the text and at its end. -/
structure Text.IsCut (cut : Nat) (t : Text) : Prop where
  le : cut ≤ t.length
  before : Zone.free.after (t.take cut) = .free
  behind : Zone.free.after (t.drop cut) = .free

namespace Text.IsCut

variable {cut : Nat} {t u : Text}

theorem after (h : t.IsCut cut) : Zone.free.after t = .free := by
  rw [← take_append_drop cut t, Zone.after_append, h.before, h.behind]

/-- A text may also be cut at its end. -/
theorem atEnd (h : t.IsCut cut) : t.IsCut t.length :=
  ⟨Nat.le_refl _, by rw [take_length, h.after], by rw [drop_length]; rfl⟩

theorem append (h : t.IsCut cut) (hu : Zone.free.after u = .free) : IsCut cut (t ++ u) where
  le := h.le.trans (by rw [length_append]; omega)
  before := by rw [take_append_of_le_length h.le, h.before]
  behind := by rw [drop_append_of_le_length h.le, Zone.after_append, h.behind, hu]

theorem exposes_append (h : t.IsCut cut) (u : Text) :
    Zone.free.exposes ((t ++ u).drop cut) = (Zone.free.exposes (t.drop cut) || Zone.free.exposes u) := by
  rw [drop_append_of_le_length h.le, Zone.exposes_append, h.behind]

/-- **A reader does not notice that digits are kept apart,** at the cut or behind it. -/
theorem separate (h : t.IsCut cut) {place : Nat} (hplace : cut ≤ place) : (Session.separate place t).IsCut cut ∧
      Zone.free.exposes ((Session.separate place t).drop cut) = Zone.free.exposes (t.drop cut) := by
  rcases Session.separate_cases place t with hself | ⟨before, rest, d, e, hbefore, hd, he, rfl, rfl⟩
  · rw [hself]
    exact ⟨h, rfl⟩
  rw [Session.separate_eq hbefore hd he]
  have hlong := h.le
  have hcut := h.before
  generalize e :: rest = rest at *
  rw [length_append, length_cons, length_cons] at hlong
  have hzone : (Zone.free.after before).isEscape = false :=
    Bool.eq_false_iff.2 fun hescape => (Zone.isEscape_after rfl before).1 hescape hbefore
  rcases Nat.lt_trichotomy cut (before.length + 1) with hlt | rfl | hgt
  · -- all of the escape stands behind the cut
    have hle : cut ≤ before.length := Nat.le_of_lt_succ hlt
    rw [take_append_of_le_length hle] at hcut
    have hsame : Zone.free.after (before.drop cut) = Zone.free.after before := by
      conv_rhs => rw [← take_append_drop cut before, Zone.after_append, hcut]
    have hgroup := (Zone.Loops.inert hzone (t := "(?:") (by decide)).append
      (Zone.Loops.escaped hzone d (t := ")") (by decide))
    have hboth := Zone.Loops.replace (hsame ▸ Zone.Loops.escaped hzone d (t := []) (by decide)) (hsame ▸ hgroup) rest
    rw [drop_append_of_le_length hle, drop_append_of_le_length hle]
    refine ⟨⟨?_, ?_, ?_⟩, hboth.2⟩
    · rw [length_append]
      omega
    · rw [take_append_of_le_length hle, hcut]
    · have hbehind := h.behind
      rw [drop_append_of_le_length hle] at hbehind ⊢
      exact hboth.1.trans hbehind
  · -- a reader is not free between a backslash and what it escapes
    rw [take_length_add_append, Zone.after_append] at hcut
    have hescape := (Zone.isEscape_next (Zone.free.after before) (.char '\\')).2 ⟨hzone, rfl⟩
    rw [show (Zone.free.after before).next (.char '\\') = .free from hcut] at hescape
    cases hescape
  · -- the group is opened before the cut, and closed behind it
    obtain rfl : cut = before.length + 2 := by omega
    have hfree : Zone.free.after before = .free := by
      rw [take_length_add_append, Zone.after_append] at hcut
      exact (Zone.Loops.escaped hzone d (t := []) (by decide)).after.symm.trans hcut
    have hclosing := (Zone.Loops.inert rfl (t := ":") (by decide)).append
      (Zone.Loops.escaped (z := .free) rfl d (t := ")") (by decide))
    have hboth := Zone.Loops.replace (a := []) Zone.Loops.nil hclosing rest
    have hbehind := h.behind
    rw [drop_length_add_append] at hbehind
    rw [drop_length_add_append, drop_length_add_append]
    refine ⟨⟨?_, ?_, ?_⟩, hboth.2⟩
    · rw [length_append]
      exact Nat.add_le_add_left (Nat.le_add_left 2 _) _
    · rw [take_length_add_append, Zone.after_append, hfree]
      rfl
    · rw [drop_length_add_append]
      exact hboth.1.trans hbehind

end Text.IsCut

end RegexBuilder
