/-
# The texts of a tree

A tree of texts, characters, digits and ranges of characters, put together in sequences, alternations and
repetitions, is read as a language: the set of the texts that it stands for as a whole (`Tree.language`).

| tree | texts |
| --- | --- |
| a literal, a character | itself |
| `\d` | the ten digits of ASCII |
| a set of ranges | each character of a range |
| a sequence | a text of each child, one after another |
| an alternation | the texts of all branches |
| a repetition | so many texts of the child, one after another |

Nodes of other kinds ask about more than the text that they stand for, and have no texts here.
-/

import RegexBuilder.Pattern.NumericRange
import Mathlib.Computability.Language
import Mathlib.Order.CompletePartialOrder

namespace RegexBuilder

/-- The texts of a leaf. -/
def Leaf.language : Leaf → Language Glyph
  | .literal text => {text}
  | .character c => {[Glyph.ofCode c.value]}
  | .charClass c => {w | c.kind = .digit ∧ ∃ g : Glyph, g.isDigit = true ∧ w = [g]}
  | .raw _ | .wildcard | .anchor _ | .backreference _ | .comment _ => 0

/-- The character of a new leaf. -/
def Element.character? : Element → Option Character
  | .fresh (.character c) => some c
  | _ => none

/-- The texts of a set that has only ranges. -/
def CharacterSet.language (s : CharacterSet Element) : Language Glyph :=
  {w | s = { ranges := s.ranges } ∧ ∃ r ∈ s.ranges, ∃ ends ∈ r.mapM? Element.character?,
    ∃ n, ends.contains n = true ∧ w = [Glyph.ofCode n]}

/-- The bounds allow `n` repetitions. -/
def Bounds.Allow (b : Bounds) (n : ℕ) : Prop := b.min ≤ n ∧ (n ≤ b.max ∨ b.max = unbounded)

namespace Tree

mutual

/-- The texts of the tree. -/
def language : Tree → Language Glyph
  | leaf l => l.language
  | set s => s.language
  | concat children => sequenceLanguage children
  | alternation branches => choiceLanguage branches
  | quantified b child => {w | ∃ n, b.Allow n ∧ w ∈ language child ^ n}
  | group child => language child
  | existing _ | enclosed _ _ | conditional _ _ _ _ | modified _ _ _ => 0

/-- The texts of several trees, one after another. -/
def sequenceLanguage : List Tree → Language Glyph
  | [] => 1
  | t :: ts => language t * sequenceLanguage ts

/-- The texts of any one of several trees. -/
def choiceLanguage : List Tree → Language Glyph
  | [] => 0
  | t :: ts => language t + choiceLanguage ts

end

variable {t : Tree} {ts us : List Tree} {w : Text} {L M : Language Glyph}

/-- A sequence is put together from sequences. -/
theorem sequenceLanguage_append (ts us : List Tree) :
    sequenceLanguage (ts ++ us) = sequenceLanguage ts * sequenceLanguage us := by
  induction ts with
  | nil => simp [sequenceLanguage]
  | cons t ts ih => simp [sequenceLanguage, ih, mul_assoc]

theorem choiceLanguage_append (ts us : List Tree) :
    choiceLanguage (ts ++ us) = choiceLanguage ts + choiceLanguage us := by
  induction ts with
  | nil => simp [choiceLanguage]
  | cons t ts ih => simp [choiceLanguage, ih, add_assoc]

theorem sequenceLanguage_pair (t u : Tree) : sequenceLanguage [t, u] = t.language * u.language := by
  simp [sequenceLanguage]

theorem choiceLanguage_singleton (t : Tree) : choiceLanguage [t] = t.language := by
  simp [choiceLanguage]

/-- A text of an alternation is a text of a branch. -/
theorem mem_choiceLanguage : w ∈ choiceLanguage ts ↔ ∃ t ∈ ts, w ∈ t.language := by
  induction ts with
  | nil => exact iff_of_false (Language.notMem_zero w) fun ⟨_, h, _⟩ => nomatch h
  | cons t ts ih => rw [choiceLanguage, Language.mem_add, ih, List.exists_mem_cons_iff]

/-- The trees match the texts of `L`, and no two of them match the same text. -/
structure Divides (ts : List Tree) (L : Language Glyph) : Prop where
  language_eq : choiceLanguage ts = L
  apart : ts.Pairwise fun t u => Disjoint t.language u.language

theorem divides_nil : Divides [] 0 := ⟨rfl, .nil⟩

/-- A tree alone is told apart from no other. -/
theorem divides_singleton (h : t.language = L) : Divides [t] L :=
  ⟨(choiceLanguage_singleton t).trans h, List.pairwise_singleton _ _⟩

/-- Trees for texts that are not those of the others. -/
theorem Divides.append (h : Divides ts L) (h' : Divides us M) (hapart : Disjoint L M) :
    Divides (ts ++ us) (L + M) := by
  rw [← h.language_eq, ← h'.language_eq] at hapart ⊢
  refine ⟨choiceLanguage_append ts us, List.pairwise_append.2 ⟨h.apart, h'.apart, ?_⟩⟩
  refine fun t ht u hu => Set.disjoint_left.2 fun w hw hw' => ?_
  exact Set.disjoint_left.1 hapart (mem_choiceLanguage.2 ⟨t, ht, hw⟩) (mem_choiceLanguage.2 ⟨u, hu, hw'⟩)

/-- A tree that is repeated a fixed number of times. -/
theorem language_exactly (t : Tree) (k : ℕ) : (t.exactly k).language = t.language ^ k := by
  ext w
  constructor
  · rintro ⟨n, ⟨hmin, hmax⟩, hw⟩
    have hn : n = k := by
      simp only [unbounded] at hmin hmax
      omega
    rwa [← hn]
  · intro hw
    exact ⟨k, ⟨le_rfl, .inl le_rfl⟩, hw⟩

/-- A tree that is repeated up to a number of times. -/
theorem mem_language_upTo {k : ℕ} :
    w ∈ (t.repeated 0 k).language ↔ ∃ n ≤ k, w ∈ t.language ^ n := by
  constructor
  · rintro ⟨n, ⟨-, hmax⟩, hw⟩
    have hn : n ≤ k := by
      simp only [unbounded] at hmax
      omega
    exact ⟨n, hn, hw⟩
  · rintro ⟨n, hn, hw⟩
    exact ⟨n, ⟨Int.natCast_nonneg n, .inl (Int.ofNat_le.2 hn)⟩, hw⟩

end Tree
end RegexBuilder
