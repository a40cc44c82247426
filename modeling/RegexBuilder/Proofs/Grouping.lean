/-
# Plain groups that are needed

A plain group `(?:…)` keeps an escape of one digit apart from a digit (`isWrap`), or it holds together what would be
read otherwise. The second kind can be counted in the tree that is left when plain groups are erased (`Shape.need`):

| shape | groups |
| --- | --- |
| `choice` | one, since bars split everything up to the parentheses around them |
| `repeated` | one, unless a suffix can stand behind the body as it is |
| a branch of a `conditional` | one, unless it is a single branch |

Lexemes are *thrifty* if no more groups than these are among them (`IsThrifty`).
-/

import RegexBuilder.Proofs.Reading

namespace RegexBuilder

open List

/-! ### Plain groups among lexemes -/

/-- The number of plain groups. -/
def plains (ls : List Lexeme) : Nat := ls.count (.opening "(?:")

/-- The lexemes begin with a plain group that keeps an escape of one digit apart from a digit. -/
def isWrap : List Lexeme → Bool
  | .opening t :: .atom (.escape [d]) :: .close :: .atom (.char c) :: _ =>
    t = "(?:" && d.isDigit && c.isDigit
  | _ => false

/-- The number of plain groups that keep an escape of one digit apart from a digit. -/
def wraps (ls : List Lexeme) : Nat := ls.tails.countP isWrap

/-- All but `k` of the plain groups keep an escape of one digit apart from a digit. -/
def IsThrifty (k : Nat) (ls : List Lexeme) : Prop := plains ls ≤ wraps ls + k

/-- What is found at the beginning of lexemes is found there when more follow. -/
theorem countP_tails_append_le {p : List Lexeme → Bool} (hnil : p [] = false)
    (hp : ∀ {ls ms}, p ls = true → p (ls ++ ms) = true) (ls ms : List Lexeme) :
    ls.tails.countP p + ms.tails.countP p ≤ (ls ++ ms).tails.countP p := by
  induction ls with
  | nil =>
    rw [List.tails, countP_singleton, hnil]
    simp
  | cons l ls ih =>
    rw [cons_append, List.tails, List.tails, countP_cons, countP_cons]
    by_cases hl : p (l :: ls) = true
    · have hl' : p (l :: (ls ++ ms)) = true := hp hl
      rw [if_pos hl, if_pos hl']
      omega
    · rw [if_neg hl]
      omega

/-- How such a group is written. -/
theorem isWrap_iff {ls : List Lexeme} : isWrap ls = true ↔ ∃ d c ms, d.isDigit = true ∧ c.isDigit = true ∧
      ls = .opening "(?:" :: .atom (.escape [d]) :: .close :: .atom (.char c) :: ms := by
  constructor
  · intro h
    unfold isWrap at h
    split at h
    · next t d c ms =>
      simp only [Bool.and_eq_true, decide_eq_true_eq] at h
      obtain ⟨⟨rfl, hd⟩, hc⟩ := h
      exact ⟨d, c, ms, hd, hc, rfl⟩
    · cases h
  · rintro ⟨d, c, ms, hd, hc, rfl⟩
    simp [isWrap, hd, hc]

/-- What follows such a group does not matter. -/
theorem isWrap_append {ls ms : List Lexeme} (h : isWrap ls = true) : isWrap (ls ++ ms) = true := by
  obtain ⟨d, c, ns, hd, hc, rfl⟩ := isWrap_iff.1 h
  exact isWrap_iff.2 ⟨d, c, ns ++ ms, hd, hc, rfl⟩

theorem wraps_cons (l : Lexeme) (ls : List Lexeme) :
    wraps (l :: ls) = wraps ls + if isWrap (l :: ls) then 1 else 0 := by
  rw [wraps, List.tails, countP_cons, wraps]

/-- No such group is lost where more lexemes follow. -/
theorem wraps_append_le (ls ms : List Lexeme) : wraps ls + wraps ms ≤ wraps (ls ++ ms) :=
  countP_tails_append_le rfl isWrap_append ls ms

theorem plains_append (ls ms : List Lexeme) : plains (ls ++ ms) = plains ls + plains ms :=
  count_append

theorem plains_cons (l : Lexeme) (ls : List Lexeme) :
    plains (l :: ls) = plains ls + if l = .opening "(?:" then 1 else 0 := by
  rw [plains, count_cons]
  simp [plains]

/-- An escape at the end takes part in no group. -/
theorem wraps_append_escape (ls : List Lexeme) (t : Text) : wraps (ls ++ [Lexeme.atom (.escape t)]) = wraps ls := by
  have hwrap : ∀ ls, isWrap (ls ++ [Lexeme.atom (.escape t)]) = isWrap ls := by
    refine fun ls => Bool.eq_iff_iff.2 ⟨fun h => ?_, isWrap_append⟩
    obtain ⟨d, c, ms, hd, hc, hls⟩ := isWrap_iff.1 h
    rcases eq_nil_or_concat ms with rfl | ⟨ms, m, rfl⟩
    · -- the last lexeme of such a group is a character
      have hlast := congrArg List.getLast? hls
      simp at hlast
    · simp only [concat_eq_append, ← cons_append] at hls
      exact isWrap_iff.2 ⟨d, c, ms, hd, hc, (append_inj' hls rfl).1⟩
  induction ls with
  | nil => rfl
  | cons l ls ih =>
    rw [cons_append, wraps_cons, ih, ← cons_append, hwrap, wraps_cons l ls]

namespace IsThrifty

variable {k k' : Nat} {ls ms : List Lexeme}

theorem nil : IsThrifty 0 [] := Nat.le_refl _

theorem mono (h : IsThrifty k ls) (hk : k ≤ k') : IsThrifty k' ls :=
  Nat.le_trans h (Nat.add_le_add_left hk _)

/-- The groups of two lists are counted together. -/
theorem append (h : IsThrifty k ls) (h' : IsThrifty k' ms) : IsThrifty (k + k') (ls ++ ms) := by
  have hwraps := wraps_append_le ls ms
  unfold IsThrifty at h h' ⊢
  rw [plains_append]
  omega

/-- One lexeme has no plain group, or is the opening of one. -/
theorem singleton (l : Lexeme) : IsThrifty (if l = .opening "(?:" then 1 else 0) [l] := by
  unfold IsThrifty
  rw [plains_cons]
  simp [plains]

theorem of_not_mem (h : .opening "(?:" ∉ ls) : IsThrifty 0 ls := by
  unfold IsThrifty plains
  rw [count_eq_zero.2 h]
  exact Nat.zero_le _

theorem of_ne {l : Lexeme} (hl : l ≠ .opening "(?:") : IsThrifty 0 [l] :=
  of_not_mem fun hmem => hl (mem_singleton.1 hmem).symm

/-- Parentheses around lexemes. -/
theorem enclosed (h : IsThrifty k ls) (l : Lexeme) :
    IsThrifty (k + if l = .opening "(?:" then 1 else 0) (l :: (ls ++ [Lexeme.close])) := by
  have hclose : IsThrifty 0 [.close] := of_ne fun h => (nomatch h)
  have hall := (singleton l).append (h.append hclose)
  exact hall.mono (by omega)

/-- **A plain group may keep an escape apart from a digit.** -/
theorem wrap {d : Glyph} {c : Char} (hd : d.isDigit = true) (hc : c.isDigit = true)
    (h : IsThrifty k (ls ++ [Lexeme.atom (.escape [d])])) (h' : IsThrifty k' (.atom (.char c) :: ms)) :
    IsThrifty (k + k') (ls ++ (Lexeme.opening "(?:" ::
      ([Lexeme.atom (.escape [d])] ++ [Lexeme.close]) ++ Lexeme.atom (.char c) :: ms)) := by
  have hwrap : wraps (.opening "(?:" :: .atom (.escape [d]) :: .close :: .atom (.char c) :: ms) =
      wraps (.atom (.char c) :: ms) + 1 := by
    rw [wraps_cons, wraps_cons, wraps_cons]
    simp [isWrap, hd, hc]
  have hwraps := wraps_append_le ls (.opening "(?:" :: .atom (.escape [d]) :: .close :: .atom (.char c) :: ms)
  unfold IsThrifty at h h' ⊢
  rw [wraps_append_escape, plains_append] at h
  simp only [cons_append, List.nil_append, plains_append, plains_cons, reduceCtorEq, if_false, if_true] at h h' ⊢
  omega

end IsThrifty

/-! ### Plain groups that a tree needs -/

namespace Shape

/-- A suffix can stand behind the branches as they are: they are one shape without a suffix. Nothing
has no suffix. -/
def takesSuffix : List (List Shape) → Bool
  | [[]] => true
  | [[repeated _ _]] => false
  | [[_]] => true
  | _ => false

theorem takesSuffix_of_length {bs : List (List Shape)} (h : bs.length ≠ 1) : takesSuffix bs = false := by
  match bs, h with
  | [], _ => rfl
  | _ :: _ :: _, _ => simp [takesSuffix]

theorem takesSuffix_singleton_of_length {ss : List Shape} (h : 2 ≤ ss.length) : takesSuffix [ss] = false := by
  match ss, h with
  | _ :: _ :: _, _ => simp [takesSuffix]

mutual

/-- The plain groups without which the shape is not written. -/
def need : Shape → Nat
  | token _ => 0
  | group _ bs => needBranches bs
  | conditional _ ps => needParts ps
  | repeated body _ => needBranches body + if takesSuffix body then 0 else 1
  | choice bs => needBranches bs + 1

/-- The plain groups without which the sequence is not written. -/
def needSequence : List Shape → Nat
  | [] => 0
  | s :: ss => s.need + needSequence ss

/-- The plain groups without which the branches are not written. -/
def needBranches : List (List Shape) → Nat
  | [] => 0
  | ss :: bs => needSequence ss + needBranches bs

/-- The plain groups without which the branches of a conditional are not written. -/
def needParts : List (List (List Shape)) → Nat
  | [] => 0
  | bs :: ps => (needBranches bs + if bs.length = 1 then 0 else 1) + needParts ps

end

theorem needSequence_append (ss ss' : List Shape) : needSequence (ss ++ ss') = needSequence ss + needSequence ss' := by
  induction ss with
  | nil => exact (Nat.zero_add _).symm
  | cons s ss ih => rw [cons_append, needSequence, needSequence, ih, Nat.add_assoc]

/-- What branches need is counted together. -/
theorem needBranches_append (bs cs : List (List Shape)) :
    needBranches (bs ++ cs) = needBranches bs + needBranches cs := by
  induction bs with
  | nil => exact (Nat.zero_add _).symm
  | cons ss bs ih => rw [cons_append, needBranches, needBranches, ih, Nat.add_assoc]

theorem needBranches_one (s : Shape) : needBranches [[s]] = s.need := rfl

/-- **Among other pieces, several branches need a group.** -/
theorem needSequence_parts (bs : List (List Shape)) :
    needSequence (parts bs) = needBranches bs + if bs.length = 1 then 0 else 1 := by
  match bs with
  | [ss] | [] => rfl
  | ss :: ss' :: bs => simp [parts, needSequence, need]

/-- Branches of a conditional need what they need in a sequence. -/
theorem needParts_eq (ps : List (List (List Shape))) : needParts ps = needSequence (ps.flatMap parts) := by
  induction ps with
  | nil => rfl
  | cons bs ps ih =>
    rw [needParts, flatMap_cons, needSequence_append, needSequence_parts, ih]

end Shape

end RegexBuilder
