/-
# Descriptions without places

Definitions that were read from a file hold the places where they stood. Two descriptions are the same
up to places if nothing else tells them apart (`unplaced`). The symbols of a description do not depend
on places, and neither does whether a string is taken for a word.
-/

import Mathlib.Data.List.Chain
import RegexBuilder.Proofs.Symbols

namespace RegexBuilder.Description

open List

/-! ### Erasing places -/

/-- One place for everything. -/
def nowhere : Position := ⟨[], 0, 0⟩

def PlacedItem.unplaced (i : PlacedItem) : PlacedItem := { i with pos := nowhere }

def SetExpr.unplaced (s : SetExpr) : SetExpr :=
  { s with items := s.items.map PlacedItem.unplaced, except := s.except.map PlacedItem.unplaced }

mutual

/-- The atom without its places. -/
def Atom.unplaced : Atom → Atom
  | .literal text => .literal text
  | .parens body => .parens (unplacedSequences body)
  | .set s => .set s.unplaced
  | .range min max zeros => .range min max zeros
  | .group which label body => .group which label (unplacedSequences body)
  | .leaf which arg => .leaf which arg
  | .backref group => .backref group
  | .cond test yes none => .cond test (unplacedSequences yes) none
  | .cond test yes (some no) => .cond test (unplacedSequences yes) (some (unplacedSequences no))
  | .modify flags body => .modify flags (unplacedSequences body)
  | .cls which => .cls which
  | .anchor which => .anchor which
  | .ref name => .ref name

/-- The term without its places. -/
def Term.unplaced : Term → Term
  | .mk _ a q => .mk nowhere a.unplaced q

/-- The terms without their places. -/
def unplacedTerms : List Term → List Term
  | [] => []
  | t :: rest => t.unplaced :: unplacedTerms rest

/-- The sequences without their places. -/
def unplacedSequences : List (List Term) → List (List Term)
  | [] => []
  | s :: rest => unplacedTerms s :: unplacedSequences rest

end

/-- The definition without its places. -/
def Definition.unplaced (d : Definition) : Definition := ⟨nowhere, d.name, unplacedSequences d.expr⟩

/-- The definitions without their places. -/
def unplaced (ds : List Definition) : List Definition := ds.map Definition.unplaced

theorem Atom.unplaced_cond (x : GroupRef) (yes : Expr) (no : Option Expr) :
    (Atom.cond x yes no).unplaced = .cond x (unplacedSequences yes) (no.map unplacedSequences) := by
  cases no <;> rw [Atom.unplaced] <;> rfl

/-- Places are erased term by term. -/
theorem unplacedTerms_eq (s : List Term) : unplacedTerms s = s.map Term.unplaced := by
  induction s with
  | nil => rfl
  | cons t s ih => rw [unplacedTerms, ih, map_cons]

/-- Places are erased sequence by sequence. -/
theorem unplacedSequences_eq (e : List (List Term)) : unplacedSequences e = e.map unplacedTerms := by
  induction e with
  | nil => rfl
  | cons s e ih => rw [unplacedSequences, ih, map_cons]

theorem Term.atom_unplaced (t : Term) : t.unplaced.atom = t.atom.unplaced := by
  cases t
  rw [unplaced, atom, atom]

/-! ### Symbols -/

theorem itemSymbols_unplaced (items : List PlacedItem) :
    itemSymbols (items.map PlacedItem.unplaced) = itemSymbols items := flatMap_map _ _ _

/-- The symbols of a set do not depend on places. -/
theorem SetExpr.symbols_unplaced (s : SetExpr) : s.unplaced.symbols = s.symbols := by
  by_cases h : s.except = []
  · simp only [symbols, unplaced, itemSymbols_unplaced, h, map_nil]
  · have h' : s.except.map PlacedItem.unplaced ≠ [] := fun hnil => h (map_eq_nil_iff.1 hnil)
    simp only [symbols, unplaced, itemSymbols_unplaced, if_neg h, if_neg h']
    rfl

mutual

/-- The symbols of an atom do not depend on places. -/
theorem Atom.symbols_unplaced : ∀ a : Atom, a.unplaced.symbols = a.symbols
  | .parens body | .group _ _ body | .modify _ body => by
    rw [Atom.unplaced, Atom.symbols, Atom.symbols, exprSymbols_unplaced body]
  | .cond test yes none => by rw [Atom.unplaced, Atom.symbols, Atom.symbols, exprSymbols_unplaced yes]
  | .cond test yes (some no) => by
    rw [Atom.unplaced, Atom.symbols, Atom.symbols, exprSymbols_unplaced yes, exprSymbols_unplaced no]
  | .set s => by rw [Atom.unplaced, Atom.symbols, Atom.symbols, s.symbols_unplaced]
  | .literal _ | .range _ _ _ | .leaf _ _ | .backref _ | .cls _ | .anchor _ | .ref _ => by
    rw [Atom.unplaced]

theorem Term.symbols_unplaced : ∀ t : Term, t.unplaced.symbols = t.symbols
  | .mk _ a _ => by rw [Term.unplaced, Term.symbols, Term.symbols, a.symbols_unplaced]

theorem sequenceSymbols_unplaced : ∀ s : List Term, sequenceSymbols (unplacedTerms s) = sequenceSymbols s
  | [] => rfl
  | t :: s => by
    rw [unplacedTerms, sequenceSymbols, sequenceSymbols, t.symbols_unplaced, sequenceSymbols_unplaced s]

theorem branchSymbols_unplaced : ∀ e : List (List Term), branchSymbols (unplacedSequences e) = branchSymbols e
  | [] => rfl
  | s :: e => by
    rw [unplacedSequences, branchSymbols, branchSymbols, sequenceSymbols_unplaced s, branchSymbols_unplaced e]

/-- The symbols of an expression do not depend on places. -/
theorem exprSymbols_unplaced : ∀ e : List (List Term), exprSymbols (unplacedSequences e) = exprSymbols e
  | [] => rfl
  | s :: e => by
    rw [unplacedSequences, exprSymbols, exprSymbols, sequenceSymbols_unplaced s, branchSymbols_unplaced e]

end

/-- **The symbols of definitions do not depend on places.** -/
theorem symbols_unplaced (ds : List Definition) : symbols (unplaced ds) = symbols ds := by
  unfold symbols unplaced
  rw [flatMap_map]
  refine flatMap_congr fun d _ => ?_
  simp only [Definition.symbols, Definition.unplaced, exprSymbols_unplaced]

/-! ### Strings that are taken for words -/

/-- The expressions inside an atom without places are those inside it, without places. -/
theorem Atom.bodies_unplaced (a : Atom) : a.unplaced.bodies = a.bodies.map unplacedSequences := by
  cases a with
  | cond test yes no => cases no <;> simp [unplaced, bodies]
  | _ => simp [unplaced, bodies]

/-- What a term swallows does not depend on places. -/
theorem Term.swallows_unplaced (t : Term) (v : Text) : t.unplaced.Swallows v ↔ t.Swallows v := by
  cases t
  rw [unplaced, Swallows, Swallows, quantifier, quantifier]

theorem Atom.unplaced_eq_literal {a : Atom} {v : Text} : a.unplaced = .literal v ↔ a = .literal v := by
  cases a with
  | cond test yes no => cases no <;> simp [unplaced]
  | _ => simp [unplaced]

/-- Only a set becomes a set. -/
theorem Atom.unplaced_eq_set {a : Atom} {x : SetExpr} : a.unplaced = .set x ↔ ∃ y, a = .set y ∧ y.unplaced = x := by
  cases a with
  | cond test yes no => cases no <;> simp [unplaced]
  | _ => simp [unplaced]

/-- Whether a string of a set is taken for a word does not depend on places. -/
theorem SetExpr.isUnmistakable_unplaced (s : SetExpr) : s.unplaced.IsUnmistakable ↔ s.IsUnmistakable := by
  have hitems : ∀ items : List PlacedItem,
      (items.map PlacedItem.unplaced).map PlacedItem.item = items.map PlacedItem.item := fun items => by
    rw [map_map]
    rfl
  have hhead : (∀ i ∈ s.unplaced.items.head?, i.item.string? ≠ some "^") ↔
      ∀ i ∈ s.items.head?, i.item.string? ≠ some "^" := by
    cases hs : s.items <;> simp [unplaced, PlacedItem.unplaced, hs]
  constructor
  · rintro ⟨hcaret, hkept, hexcept⟩
    exact ⟨fun hneg => hhead.1 (hcaret hneg), hitems s.items ▸ hkept, hitems s.except ▸ hexcept⟩
  · rintro ⟨hcaret, hkept, hexcept⟩
    refine ⟨fun hneg => hhead.2 (hcaret hneg), ?_, ?_⟩
    · exact (hitems s.items).symm ▸ hkept
    · exact (hitems s.except).symm ▸ hexcept

/-- **Whether a string is taken for a word does not depend on places.** -/
theorem Sequence.isUnmistakable_unplaced (s : List Term) :
    Sequence.IsUnmistakable (unplacedTerms s) ↔ Sequence.IsUnmistakable s := by
  have hchain : ((unplacedTerms s).IsChain fun t next => ∀ v, next.atom = .literal v → ¬ t.Swallows v) ↔
      s.IsChain fun t next => ∀ v, next.atom = .literal v → ¬ t.Swallows v := by
    rw [unplacedTerms_eq, isChain_map]
    simp only [Term.atom_unplaced, Atom.unplaced_eq_literal, Term.swallows_unplaced]
  have hsets : (∀ t ∈ unplacedTerms s, ∀ x, t.atom = .set x → x.IsUnmistakable) ↔
      ∀ t ∈ s, ∀ x, t.atom = .set x → x.IsUnmistakable := by
    simp only [unplacedTerms_eq, forall_mem_map, Term.atom_unplaced, Atom.unplaced_eq_set]
    constructor
    · exact fun h t ht x hx => x.isUnmistakable_unplaced.1 (h t ht _ ⟨x, hx, rfl⟩)
    · rintro h t ht _ ⟨x, hx, rfl⟩
      exact x.isUnmistakable_unplaced.2 (h t ht x hx)
  exact ⟨fun h => ⟨hchain.1 h.terms, hsets.1 h.sets⟩, fun h => ⟨hchain.2 h.terms, hsets.2 h.sets⟩⟩

/-- What does not look at places holds everywhere whatever the places are. -/
theorem everywhere_unplaced {P : Expr → Prop} (hP : ∀ e, P (unplacedSequences e) ↔ P e) (e : Expr) :
    Everywhere P (unplacedSequences e) ↔ Everywhere P e := by
  rw [everywhere_iff, everywhere_iff (e := e), hP]
  refine and_congr_right fun _ => ?_
  simp only [unplacedSequences_eq, unplacedTerms_eq, forall_mem_map, Term.atom_unplaced, Atom.bodies_unplaced]
  refine forall₂_congr fun s hs => forall₂_congr fun t ht => forall₂_congr fun b hb => ?_
  rw [← unplacedSequences_eq]
  exact everywhere_unplaced hP b
termination_by sizeOf e
decreasing_by exact sizeOf_body_lt hs ht hb

end RegexBuilder.Description
