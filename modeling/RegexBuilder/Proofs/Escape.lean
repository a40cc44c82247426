/-
# Texts that end outside an escape

A text is *complete* if it ends in an even number of backslashes, so that what is written next is not taken for the
rest of an escape. Every form of a leaf is complete, raw texts apart. `Session.separate` looks back two glyphs from
a place in the output, and where what stands before the text of a node is complete it sees the node's own text only
(`Session.separate_append`).
-/

import Mathlib.Tactic.Common
import RegexBuilder.Pattern.Rules
import RegexBuilder.Pattern.Session

namespace RegexBuilder

open List Option Text
open Session (backslashes separate)

/-! ### Complete texts -/

/-- The text does not end in the middle of an escape. -/
def Text.IsComplete (t : Text) : Prop := backslashes t % 2 = 0

instance (t : Text) : Decidable t.IsComplete := inferInstanceAs (Decidable (backslashes t % 2 = 0))

namespace Text

theorem backslashes_append (a b : Text) :
    backslashes (a ++ b) =
      if backslashes b = b.length then b.length + backslashes a else backslashes b := by
  unfold backslashes
  rw [reverse_append, List.takeWhile_append, length_reverse]
  split
  · rw [length_append, length_reverse]
  · rfl

theorem isComplete_nil : IsComplete [] := rfl

variable {a b t : Text}

/-- Complete texts make a complete text. -/
theorem isComplete_append (ha : a.IsComplete) (hb : b.IsComplete) : (a ++ b).IsComplete := by
  unfold IsComplete at *
  rw [backslashes_append]
  split <;> omega

/-- What is complete does not count where the backslashes after it are counted. -/
theorem isComplete_append_iff (ha : a.IsComplete) : (a ++ b).IsComplete ↔ b.IsComplete := by
  unfold IsComplete at *
  rw [backslashes_append]
  split <;> omega

theorem backslashes_eq_zero (h : .char '\\' ∉ t) : backslashes t = 0 := by
  unfold backslashes
  rw [length_eq_zero_iff]
  cases hr : t.reverse with
  | nil => rfl
  | cons g l =>
    have hg : g ∈ t := mem_reverse.1 (hr ▸ mem_cons_self)
    rw [takeWhile_cons, if_neg]
    exact fun hslash => h (of_decide_eq_true hslash ▸ hg)

/-- After a glyph that is no backslash a text is complete, whatever stands before. -/
theorem isComplete_append_of_not_mem (a : Text) (hb : b ≠ []) (h : .char '\\' ∉ b) : (a ++ b).IsComplete := by
  have hlen : 0 < b.length := length_pos_iff.2 hb
  unfold IsComplete
  rw [backslashes_append, backslashes_eq_zero h, if_neg (by omega)]

theorem isComplete_of_not_mem (h : .char '\\' ∉ t) : t.IsComplete := by
  unfold IsComplete
  rw [backslashes_eq_zero h]

/-- Any number of complete texts make one. -/
theorem isComplete_flatMap {α : Type} {f : α → Text} :
    ∀ {l : List α}, (∀ x ∈ l, (f x).IsComplete) → IsComplete (l.flatMap f)
  | [], _ => isComplete_nil
  | x :: l, h => by
    rw [flatMap_cons]
    exact isComplete_append (h x mem_cons_self) (isComplete_flatMap fun y hy => h y (mem_cons_of_mem _ hy))

end Text

/-! ### Keeping digits apart -/

namespace Session

variable {t w l : Text} {d e : Glyph} {place : Nat}

/-- An escape of one digit is put into a group before another digit. -/
theorem separate_eq (hw : w.IsComplete) (hd : d.isDigit = true) (he : e.isDigit = true) :
    separate (w.length + 2) (w ++ .char '\\' :: d :: e :: l) = w ++ ("(?:\\" ++ [d] ++ ")" ++ e :: l) := by
  have hsplit : w ++ .char '\\' :: d :: e :: l = (w ++ [.char '\\', d]) ++ e :: l := by simp
  have hlength : w.length + 2 = (w ++ [.char '\\', d]).length := by simp
  have hparity : backslashes w % 2 = 0 := hw
  unfold separate
  rw [hsplit, hlength, take_left, drop_left]
  simp [hd, he, hparity]

/-- Nothing is done where no such escape ends. -/
theorem separate_cases (place : Nat) (t : Text) : separate place t = t ∨ ∃ (w l : Text) (d e : Glyph),
    w.IsComplete ∧ d.isDigit = true ∧ e.isDigit = true ∧ place = w.length + 2 ∧ t = w ++ .char '\\' :: d :: e :: l := by
  unfold separate
  split
  · next d before e l htake hdrop =>
    split
    · next hcond =>
      simp only [Bool.and_eq_true, decide_eq_true_eq] at hcond
      have htake' : t.take place = before.reverse ++ [.char '\\', d] := by
        rw [← reverse_reverse (t.take place), htake]
        simp
      have hlength : min place t.length = before.reverse.length + 2 := by
        rw [← length_take, htake', length_append]
        rfl
      have hlt : place < t.length := by
        by_contra h
        rw [drop_eq_nil_of_le (by omega)] at hdrop
        cases hdrop
      refine .inr ⟨before.reverse, l, d, e, hcond.2, hcond.1.1, hcond.1.2, by omega, ?_⟩
      rw [← take_append_drop place t, htake', hdrop, append_assoc]
      rfl
    · exact .inl rfl
  · exact .inl rfl

/-- **Only the node's own text is looked at,** except at the place where it begins. -/
theorem separate_append {pre : Text} (hpre : pre.IsComplete) (hplace : 0 < place) :
    separate (pre.length + place) (pre ++ t) = pre ++ separate place t := by
  have hgroup : ∀ {w l : Text} {d e : Glyph}, w.IsComplete → d.isDigit = true → e.isDigit = true →
      place = w.length + 2 → t = w ++ .char '\\' :: d :: e :: l →
      separate (pre.length + place) (pre ++ t) = pre ++ separate place t := by
    rintro w l d e hw hd he rfl rfl
    rw [separate_eq hw hd he, ← append_assoc, ← append_assoc, ← Nat.add_assoc, ← length_append]
    exact separate_eq (isComplete_append hpre hw) hd he
  rcases separate_cases (pre.length + place) (pre ++ t) with hself | ⟨w, l, d, e, hw, hd, he, hlength, ht⟩
  · rcases separate_cases place t with hself' | ⟨w, l, d, e, hw, hd, he, hlength, ht⟩
    · rw [hself, hself']
    · exact hgroup hw hd he hlength ht
  rcases append_eq_append_iff.1 ht with ⟨v, rfl, hv⟩ | ⟨v, rfl, hv⟩
  · rw [length_append] at hlength
    exact hgroup ((isComplete_append_iff hpre).1 hw) hd he (by omega) hv
  · rw [length_append] at hlength
    rcases v with - | ⟨g, - | ⟨g', v⟩⟩
    · exact hgroup isComplete_nil hd he (by simp at hlength ⊢; omega) hv.symm
    · -- the backslash before the only glyph is not the node's own
      cases hv
      cases (isComplete_append_iff hw).1 hpre
    · simp at hlength
      omega

/-- **A complete text stays complete.** What is put in the middle does not change how it ends. -/
theorem isComplete_separate (h : t.IsComplete) : (separate place t).IsComplete := by
  rcases separate_cases place t with hself | ⟨w, l, d, e, hw, hd, he, rfl, rfl⟩
  · rwa [hself]
  have hslash : .char '\\' ∉ [d] := by
    rintro hmem
    cases mem_singleton.1 hmem
    cases hd
  have hescape : Text.IsComplete [.char '\\', d] :=
    isComplete_append_of_not_mem [.char '\\'] (cons_ne_nil _ _) hslash
  rw [isComplete_append_iff hw] at h
  have hend : Text.IsComplete (e :: l) := (isComplete_append_iff hescape).1 h
  rw [separate_eq hw hd he, ← append_assoc]
  refine isComplete_append ?_ hend
  rw [← append_assoc]
  exact isComplete_append_of_not_mem _ (by decide) (by decide)

theorem separate_ne_nil (h : t ≠ []) : separate place t ≠ [] := by
  rcases separate_cases place t with hself | ⟨w, l, d, e, hw, hd, he, rfl, rfl⟩
  · rwa [hself]
  · rw [separate_eq hw hd he]
    simp

end Session

/-! ### Forms of leaves -/

/-- A digit in base `b` is written as one of the first `b` digit characters. -/
theorem exists_of_mem_toDigits {b : Nat} (hb : 1 < b) {n : Nat} {c : Char}
    (h : c ∈ Nat.toDigits b n) : ∃ d < b, c = Nat.digitChar d := by
  induction n using Nat.strongRecOn with
  | _ n ih =>
    rw [Nat.toDigits_eq_if hb] at h
    split at h
    · next hn => exact ⟨n, hn, mem_singleton.1 h⟩
    · rcases mem_append.1 h with h | h
      · exact ih (n / b) (Nat.div_lt_self (by omega) hb) h
      · exact ⟨n % b, Nat.mod_lt _ (by omega), mem_singleton.1 h⟩

namespace Text

variable {base d width n : Nat} {g : Glyph} {c : Char}

theorem addDigit_digitChar (hbase : base ≤ 16) (hd : d < base) (n : Nat) :
    addDigit base n (.char (Nat.digitChar d)) = some (n * base + d) := by
  have hvalue : ∀ d < 16, digitValue? (Nat.digitChar d) = some d := by decide
  rw [addDigit, hvalue d (by omega), bind_eq_bind, bind_some, if_pos hd]

/-- **A number is read from its digits,** in any base. -/
theorem ofDigits?_toDigits (hb : 1 < base) (hbase : base ≤ 16) (n : Nat) :
    ofDigits? base ((Nat.toDigits base n).map .char) = some n := by
  unfold ofDigits?
  induction n using Nat.strongRecOn with
  | _ n ih =>
    rw [Nat.toDigits_eq_if hb]
    split
    · next hn =>
      rw [map_cons, map_nil, foldlM_cons, addDigit_digitChar hbase hn]
      simp
    · next hn =>
      rw [map_append, foldlM_append, ih (n / base) (Nat.div_lt_self (by omega) hb),
        bind_eq_bind, bind_some, map_cons, map_nil, foldlM_cons,
        addDigit_digitChar hbase (Nat.mod_lt _ (by omega))]
      exact congrArg some (Nat.div_add_mod' n base)

theorem addDigit_toUpper (hd : d < 16) (base n : Nat) :
    addDigit base n (.char (Nat.digitChar d).toUpper) = addDigit base n (.char (Nat.digitChar d)) := by
  have hvalue : ∀ d < 16, digitValue? (Nat.digitChar d).toUpper = digitValue? (Nat.digitChar d) := by decide
  rw [addDigit, addDigit, hvalue d hd]

/-- Leading zeros do not count. -/
theorem ofDigits?_padLeft (hb : 1 < base) (width : Nat) (t : Text) :
    ofDigits? base (padLeft width '0' t) = ofDigits? base t := by
  have hzero : addDigit base 0 (.char '0') = some 0 := by
    show (if 0 < base then some (0 * base + 0) else none) = some 0
    rw [if_pos (by omega), Nat.zero_mul]
  have hzeros : ∀ k, (List.replicate k (Glyph.char '0')).foldlM (addDigit base) 0 = some 0 := by
    intro k
    induction k with
    | zero => rfl
    | succ k ih => rw [replicate_succ, foldlM_cons, hzero, bind_eq_bind, bind_some, ih]
  rw [ofDigits?, padLeft, foldlM_append, hzeros, bind_eq_bind, bind_some, ofDigits?]

/-- **A number is read from its digits of a fixed width.** -/
theorem ofDigits?_ofNatBase (hb : 1 < base) (hbase : base ≤ 16) (width n : Nat) :
    ofDigits? base (ofNatBase base width n) = some n := by
  have hupper : ∀ (l : List Char) (k : Nat), (∀ c ∈ l, ∃ d < base, c = Nat.digitChar d) →
      (l.map fun c => Glyph.char c.toUpper).foldlM (addDigit base) k = (l.map Glyph.char).foldlM (addDigit base) k := by
    intro l
    induction l with
    | nil => exact fun _ _ => rfl
    | cons c l ih =>
      intro k h
      obtain ⟨⟨d, hd, rfl⟩, hl⟩ := forall_mem_cons.1 h
      rw [map_cons, map_cons, foldlM_cons, foldlM_cons, addDigit_toUpper (by omega)]
      exact congrArg _ (funext fun k => ih k hl)
  rw [ofNatBase, ofDigits?_padLeft hb, ofDigits?, hupper _ _ fun _ => exists_of_mem_toDigits hb]
  exact ofDigits?_toDigits hb hbase n

/-- The digits of a number in base `b`, the padding included. -/
theorem exists_of_mem_ofNatBase (hb : 1 < base) (h : g ∈ ofNatBase base width n) :
    ∃ d < base, g = .char (Nat.digitChar d).toUpper := by
  unfold ofNatBase padLeft at h
  rcases mem_append.1 h with h | h
  · exact ⟨0, by omega, eq_of_mem_replicate h⟩
  · obtain ⟨c, hc, rfl⟩ := mem_map.1 h
    obtain ⟨d, hd, rfl⟩ := exists_of_mem_toDigits hb hc
    exact ⟨d, hd, rfl⟩

theorem not_mem_ofNatBase (hb : 1 < base) (hb' : base ≤ 16) : .char '\\' ∉ ofNatBase base width n := by
  have hdigit : ∀ d < 16, (Nat.digitChar d).toUpper ≠ '\\' := by decide
  intro h
  obtain ⟨d, hd, heq⟩ := exists_of_mem_ofNatBase hb h
  exact hdigit d (by omega) (Glyph.char.inj heq).symm

theorem ofNatBase_ne_nil (base width n : Nat) : ofNatBase base width n ≠ [] := by
  unfold ofNatBase padLeft
  have := Nat.toDigits_ne_nil (b := base) (n := n)
  simp [this]

theorem isDigit_of_mem_ofNat (h : g ∈ ofNat n) : g.isDigit = true := by
  obtain ⟨c, hc, rfl⟩ := mem_map.1 h
  exact Nat.isDigit_of_mem_toDigits (by decide) (by decide) hc

theorem not_mem_ofNat (hc : c.isDigit = false) (n : Nat) : .char c ∉ ofNat n := by
  intro h
  have hdigit : c.isDigit = true := isDigit_of_mem_ofNat h
  rw [hc] at hdigit
  cases hdigit

theorem not_mem_ofInt (hc : c.isDigit = false) (hminus : c ≠ '-') (n : Int) : .char c ∉ ofInt n := by
  unfold ofInt
  split
  · exact not_mem_ofNat hc _
  · intro h
    rcases mem_append.1 h with h | h
    · exact hminus (Glyph.char.inj (mem_singleton.1 h))
    · exact not_mem_ofNat hc _ h

theorem ofNat_ne_nil (n : Nat) : ofNat n ≠ [] := by
  unfold ofNat
  simp [Nat.toDigits_ne_nil]

theorem ofInt_ne_nil (n : Int) : ofInt n ≠ [] := by
  unfold ofInt
  split
  · exact ofNat_ne_nil _
  · simp [ofNat_ne_nil]

theorem not_mem_letters (o : Options) : .char '\\' ∉ o.letters := by
  intro h
  obtain ⟨e, he, heq⟩ := mem_map.1 h
  have hnone : ∀ e ∈ Options.table, Glyph.char e.1 ≠ .char '\\' := by decide
  exact hnone e (mem_filter.1 he).1 heq

end Text

theorem escapeChar_ne_nil (special : List Char) (c : Char) : escapeChar special c ≠ [] := by
  unfold escapeChar
  split <;> exact cons_ne_nil _ _

/-- An escaped character is complete, as the backslash is itself escaped. -/
theorem isComplete_escapeChar {special : List Char} (h : '\\' ∈ special) (c : Char) :
    (escapeChar special c).IsComplete := by
  unfold escapeChar
  by_cases hc : c = '\\'
  · subst hc
    rw [if_pos h]
    rfl
  · have hnot : .char '\\' ∉ [Glyph.char c] := by simpa using fun heq : '\\' = c => hc heq.symm
    split
    · exact isComplete_append_of_not_mem [.char '\\'] (cons_ne_nil _ _) hnot
    · exact isComplete_of_not_mem hnot

theorem Character.form_ne_nil (inSet : Bool) (c : Character) : c.form inSet ≠ [] := by
  cases c with
  | plain => exact escapeChar_ne_nil _ _
  | backspace => cases inSet <;> decide
  | null | bell | formFeed | newLine | carriageReturn | tab | verticalTab => exact cons_ne_nil _ _
  | controlLetter | hexCode | octalCode | unicodeCode => exact cons_ne_nil _ _

/-- **Every form of a character is complete.** -/
theorem Character.isComplete_form (inSet : Bool) (c : Character) : (c.form inSet).IsComplete := by
  cases c with
  | plain => exact isComplete_escapeChar (by cases inSet <;> decide) _
  | backspace => cases inSet <;> rfl
  | null | bell | formFeed | newLine | carriageReturn | tab | verticalTab => rfl
  | controlLetter n =>
    have hletter : ∀ n : Fin 26, .char '\\' ∉ [Glyph.char (Char.ofNat (n + 65))] := by decide
    exact isComplete_append_of_not_mem _ (cons_ne_nil _ _) (hletter n)
  | hexCode | octalCode | unicodeCode =>
    exact isComplete_append_of_not_mem _ (ofNatBase_ne_nil _ _ _)
      (not_mem_ofNatBase (by decide) (by decide))

namespace CharClass

variable {c : CharClass}

theorem form_ne_nil (h : ∀ code, c.kind ≠ .undeclared code) : c.form ≠ [] := by
  unfold form
  split
  all_goals first | exact cons_ne_nil _ _ | exact absurd ‹_› (h _)

/-- The form of a class is complete. -/
theorem isComplete_form (c : CharClass) : c.form.IsComplete := by
  unfold form
  split
  all_goals first
    | rfl
    | exact isComplete_append_of_not_mem _ (cons_ne_nil _ _) (by decide)

end CharClass

/-- **Every form of a leaf is complete,** if it is not a raw text that is not. -/
theorem Leaf.isComplete_form {l : Leaf} {t : Text} (h : l.form = .ok t)
    (hraw : ∀ u, l = .raw u → u.IsComplete) : t.IsComplete := by
  cases l with
  | literal =>
    cases h
    exact isComplete_flatMap fun g _ => isComplete_escapeChar (by decide) _
  | raw =>
    cases h
    exact hraw _ rfl
  | character c =>
    cases h
    exact c.isComplete_form false
  | charClass c =>
    simp only [form] at h
    split at h
    · cases h
    · cases h
      exact c.isComplete_form
  | wildcard =>
    cases h
    rfl
  | anchor kind =>
    cases kind <;> cases h <;> rfl
  | backreference =>
    simp only [form] at h
    split at h
    · cases h
      exact isComplete_append_of_not_mem _ (cons_ne_nil _ _) (by decide)
    · split at h
      · cases h
      · cases h
        exact isComplete_append_of_not_mem _ (ofInt_ne_nil _) (not_mem_ofInt rfl (by decide) _)
  | comment =>
    simp only [form] at h
    split at h
    · cases h
      exact isComplete_nil
    · split at h
      · cases h
      · cases h
        exact isComplete_append_of_not_mem _ (cons_ne_nil _ _) (by decide)

/-- **A leaf that is not empty is written as something.** -/
theorem Leaf.form_ne_nil {l : Leaf} {t : Text} (h : l.form = .ok t)
    (hclass : ∀ c code, l = .charClass c → c.kind ≠ .undeclared code) (hl : l.isEmpty = false) : t ≠ [] := by
  cases l with
  | literal u =>
    cases h
    cases u with
    | nil => cases hl
    | cons => exact append_ne_nil_of_left_ne_nil (escapeChar_ne_nil _ _) _
  | raw =>
    cases h
    exact fun hu => by simp [isEmpty, hu] at hl
  | character c =>
    cases h
    exact c.form_ne_nil false
  | charClass c =>
    simp only [form] at h
    split at h
    · cases h
    · cases h
      exact CharClass.form_ne_nil fun code => hclass c code rfl
  | wildcard =>
    cases h
    exact cons_ne_nil _ _
  | anchor kind =>
    cases kind <;> cases h <;> exact cons_ne_nil _ _
  | backreference =>
    simp only [form] at h
    split at h
    · cases h
      exact cons_ne_nil _ _
    · split at h
      · cases h
      · cases h
        exact cons_ne_nil _ _
  | comment u =>
    have hu : u.isEmpty = false := hl
    simp only [form, hu, Bool.false_eq_true, if_false] at h
    split at h
    · cases h
    · cases h
      exact cons_ne_nil _ _
end RegexBuilder
