/-
# Expressions and their trees

What the tree of an expression takes from the expression, for any numbering of the definitions: its links are the
nodes of the names (`exprTree_linked`), its new nodes are proper if the expression is (`exprTree_isProper`), and
other atoms in the place of references put their trees in the place of the links (`exprTree_subst`). Each is an
induction on the expression.
-/

import RegexBuilder.Description.Resolve
import RegexBuilder.Proofs.DigitTree

namespace RegexBuilder.Description

open List

/-! ### Atoms of an expression -/

/-- The bounds of the quantifier are skipped. -/
def isSkipped (skips : Bounds → Bool) : Option Quantifier → Bool
  | none => false
  | some q =>
    match q.bounds with
    | .ok b => skips b
    | .error _ => false

mutual

/-- The atom and those inside it, up to atoms whose quantifiers are skipped. -/
def Atom.atoms (skips : Bounds → Bool) : Atom → List Atom
  | .literal text => [.literal text]
  | .parens body => .parens body :: sequenceAtoms skips body
  | .set s => [.set s]
  | .range min max zeros => [.range min max zeros]
  | .group which label body => .group which label body :: sequenceAtoms skips body
  | .leaf which arg => [.leaf which arg]
  | .backref group => [.backref group]
  | .cond test yes none => .cond test yes none :: sequenceAtoms skips yes
  | .cond test yes (some no) =>
    .cond test yes (some no) :: (sequenceAtoms skips yes ++ sequenceAtoms skips no)
  | .modify flags body => .modify flags body :: sequenceAtoms skips body
  | .cls which => [.cls which]
  | .anchor which => [.anchor which]
  | .ref name => [.ref name]

/-- The atoms of a term. -/
def Term.atoms (skips : Bounds → Bool) : Term → List Atom
  | .mk _ a q => if isSkipped skips q then [] else a.atoms skips

/-- The atoms of terms. -/
def termAtoms (skips : Bounds → Bool) : List Term → List Atom
  | [] => []
  | t :: rest => t.atoms skips ++ termAtoms skips rest

/-- The atoms of sequences. -/
def sequenceAtoms (skips : Bounds → Bool) : List (List Term) → List Atom
  | [] => []
  | s :: rest => termAtoms skips s ++ sequenceAtoms skips rest

end

/-! ### Other atoms in the place of references -/

mutual

/-- The atom with `ρ x` in the place of a reference to `x`. -/
def Atom.subst (ρ : Text → Atom) : Atom → Atom
  | .literal text => .literal text
  | .parens body => .parens (substSequences ρ body)
  | .set s => .set s
  | .range min max zeros => .range min max zeros
  | .group which label body => .group which label (substSequences ρ body)
  | .leaf which arg => .leaf which arg
  | .backref group => .backref group
  | .cond test yes none => .cond test (substSequences ρ yes) none
  | .cond test yes (some no) => .cond test (substSequences ρ yes) (some (substSequences ρ no))
  | .modify flags body => .modify flags (substSequences ρ body)
  | .cls which => .cls which
  | .anchor which => .anchor which
  | .ref name => ρ name

/-- The term with `ρ x` in the place of a reference to `x`. -/
def Term.subst (ρ : Text → Atom) : Term → Term
  | .mk pos a q => .mk pos (a.subst ρ) q

/-- The terms with `ρ x` in the place of a reference to `x`. -/
def substTerms (ρ : Text → Atom) : List Term → List Term
  | [] => []
  | t :: rest => t.subst ρ :: substTerms ρ rest

/-- The sequences with `ρ x` in the place of a reference to `x`. -/
def substSequences (ρ : Text → Atom) : List (List Term) → List (List Term)
  | [] => []
  | s :: rest => substTerms ρ s :: substSequences ρ rest

end

/-! ### One tree stands for itself -/

section

variable {combine : List Tree → Tree} {ts : List Tree}

/-- One tree has the links of what it is put together as. -/
theorem links_collapse {skips : Bounds → Bool} (h : (combine ts).links skips = Tree.linksAll skips ts) :
    (collapse combine ts).links skips = Tree.linksAll skips ts := by
  unfold collapse
  split
  · simp [Tree.linksAll]
  · exact h

theorem isProper_collapse {D : Text → Prop} (hcombine : (combine ts).IsProper D)
    (h : Tree.AllProper D ts) : (collapse combine ts).IsProper D := by
  unfold collapse
  split
  · exact h.1
  · exact hcombine

/-- Grafting is the same before and after trees are put together. -/
theorem collapse_graftAll {σ : Ref → Tree} (h : combine (Tree.graftAll σ ts) = (combine ts).graft σ) :
    collapse combine (Tree.graftAll σ ts) = (collapse combine ts).graft σ := by
  match ts with
  | [] | _ :: _ :: _ => exact h
  | [_] => rfl

end

/-! ### When there is a tree -/

/-- A choice has a tree if its branches have. -/
theorem choice_eq_ok {branches : Placed (List Tree)} {t : Tree} :
    choice branches = .ok t ↔ ∃ ts, branches = .ok ts ∧ collapse .alternation ts = t := by
  cases branches with
  | error | ok => simp [choice, Except.map]

/-- Only problems are located. -/
theorem locate_eq_ok {α : Type} {pos : Position} {r : Except TermProblem α} {x : α} :
    locate pos r = .ok x ↔ r = .ok x := by
  cases r <;> simp [locate, Except.mapError]

theorem ofArgument_eq_ok {α : Type} {r : Except ArgumentError α} {x : α} : ofArgument r = .ok x ↔ r = .ok x := by
  cases r <;> simp [ofArgument, Except.mapError]

/-! ### Links -/

/-- The name that a reference refers to. -/
def Atom.ref? : Atom → Option Text
  | .ref name => some name
  | _ => none

/-- The names that the atoms refer to. -/
def refsOf (atoms : List Atom) : List Text := atoms.filterMap Atom.ref?

/-- The names are those of the references. -/
theorem mem_refsOf {atoms : List Atom} {x : Text} : x ∈ refsOf atoms ↔ .ref x ∈ atoms := by
  refine mem_filterMap.trans ⟨?_, fun h => ⟨_, h, rfl⟩⟩
  rintro ⟨a, ha, hx⟩
  cases a <;> cases hx
  exact ha

theorem refsOf_append (atoms more : List Atom) : refsOf (atoms ++ more) = refsOf atoms ++ refsOf more :=
  filterMap_append

/-- The tree of a set has the ranges and members of its entries. -/
theorem SetExpr.exists_of_tree_eq_ok {s : SetExpr} {t : Tree} (h : s.tree = .ok t) :
    ∃ ranges members ranges' members', itemElements s.items = .ok (ranges, members) ∧
      itemElements s.except = .ok (ranges', members') ∧
      t = .set ⟨ranges, members, ranges', members', s.negated⟩ := by
  obtain ⟨⟨ranges, members⟩, hitems, h⟩ := bind_eq_ok.1 h
  obtain ⟨⟨ranges', members'⟩, hexcept, h⟩ := bind_eq_ok.1 h
  cases h
  exact ⟨ranges, members, ranges', members', hitems, hexcept, rfl⟩

section

variable {nodes : Text → Option NodeId} {skips : Bounds → Bool}

/-- The links are the nodes of the names, one by one. -/
abbrev Linked (nodes : Text → Option NodeId) (names : List Text) (links : List NodeId) : Prop :=
  Forall₂ (fun x i => nodes x = some i) names links

/-- A choice is linked as its branches are. -/
theorem linked_choice {body : Expr} {t : Tree} (h : ∀ {ts}, sequenceTrees nodes body = .ok ts →
      Linked nodes (refsOf (sequenceAtoms skips body)) (Tree.linksAll skips ts))
    (ht : choice (sequenceTrees nodes body) = .ok t) :
    Linked nodes (refsOf (sequenceAtoms skips body)) (t.links skips) := by
  obtain ⟨ts, hts, rfl⟩ := choice_eq_ok.1 ht
  rw [links_collapse (by rw [Tree.links])]
  exact h hts

mutual

/-- The links of an atom, by induction on the expression that it is in. -/
theorem Atom.linked : ∀ {a : Atom} {pos : Position} {t : Tree}, a.tree nodes pos = .ok t →
    Linked nodes (refsOf (a.atoms skips)) (t.links skips)
  | .literal text, _, _, h | .cls which, _, _, h | .anchor which, _, _, h => by
    cases h
    exact .nil
  | .parens body, pos, _, h => by
    obtain ⟨t, ht, h⟩ := bind_eq_ok.1 h
    cases h
    rw [Tree.links]
    exact linked_choice sequences_linked ht
  | .set s, _, _, h => by
    obtain ⟨_, _, _, _, -, -, rfl⟩ := SetExpr.exists_of_tree_eq_ok h
    exact .nil
  | .range min max zeros, _, t, h => by
    rw [(numericRange_isDigital (mapError_eq_ok.1 (locate_eq_ok.1 h))).links_eq_nil]
    exact .nil
  | .group which label body, pos, _, h => by
    obtain ⟨t, ht, h⟩ := bind_eq_ok.1 h
    obtain ⟨how, -, h⟩ := bind_eq_ok.1 h
    cases h
    rw [Tree.links]
    exact linked_choice sequences_linked ht
  | .leaf which arg, _, _, h | .backref group, _, _, h => by
    obtain ⟨l, -, h⟩ := bind_eq_ok.1 h
    cases h
    exact .nil
  | .cond test yes none, _, _, h => by
    obtain ⟨t, ht, h⟩ := bind_eq_ok.1 h
    obtain ⟨c, -, h⟩ := bind_eq_ok.1 h
    cases h
    rw [Tree.links, Tree.absent, Tree.links, Option.toList_none, List.append_nil]
    exact linked_choice sequences_linked ht
  | .cond test yes (some no), _, _, h => by
    obtain ⟨t, ht, h⟩ := bind_eq_ok.1 h
    obtain ⟨u, hu, h⟩ := bind_eq_ok.1 h
    obtain ⟨c, -, h⟩ := bind_eq_ok.1 h
    cases h
    rw [Tree.links, Tree.absent, Tree.links, Atom.atoms]
    show Linked nodes (refsOf (_ ++ _)) _
    rw [refsOf_append]
    exact rel_append (linked_choice sequences_linked ht) (linked_choice sequences_linked hu)
  | .modify flags body, _, _, h => by
    obtain ⟨⟨on, off⟩, -, h⟩ := bind_eq_ok.1 h
    obtain ⟨t, ht, h⟩ := bind_eq_ok.1 h
    cases h
    rw [Tree.links]
    exact linked_choice sequences_linked ht
  | .ref name, pos, t, h => by
    rw [Atom.tree] at h
    split at h
    · next i hi =>
      cases h
      exact .cons hi .nil
    · cases h

theorem Term.linked : ∀ {u : Term} {t : Tree}, u.tree nodes = .ok t →
    Linked nodes (refsOf (u.atoms skips)) (t.links skips)
  | .mk pos a none, _, h => by
    obtain ⟨t, ht, h⟩ := bind_eq_ok.1 h
    cases h
    exact Atom.linked ht
  | .mk pos a (some q), _, h => by
    obtain ⟨t, ht, h⟩ := bind_eq_ok.1 h
    obtain ⟨b, hb, h⟩ := bind_eq_ok.1 h
    cases h
    have hskip : isSkipped skips (some q) = skips b := by
      rw [isSkipped, locate_eq_ok.1 hb]
    rw [Term.atoms, hskip, Tree.links]
    split
    · exact .nil
    · exact Atom.linked ht

theorem terms_linked : ∀ {us : List Term} {ts : List Tree}, termTrees nodes us = .ok ts →
    Linked nodes (refsOf (termAtoms skips us)) (Tree.linksAll skips ts)
  | [], _, h => by
    cases h
    exact .nil
  | u :: us, _, h => by
    obtain ⟨t, ht, h⟩ := bind_eq_ok.1 h
    obtain ⟨ts, hts, h⟩ := bind_eq_ok.1 h
    cases h
    rw [termAtoms, refsOf_append, Tree.linksAll]
    exact rel_append (Term.linked ht) (terms_linked hts)

/-- The links of sequences. -/
theorem sequences_linked : ∀ {ss : List (List Term)} {ts : List Tree},
    sequenceTrees nodes ss = .ok ts →
    Linked nodes (refsOf (sequenceAtoms skips ss)) (Tree.linksAll skips ts)
  | [], _, h => by
    cases h
    exact .nil
  | s :: ss, _, h => by
    obtain ⟨us, hus, h⟩ := bind_eq_ok.1 h
    obtain ⟨ts, hts, h⟩ := bind_eq_ok.1 h
    cases h
    rw [sequenceAtoms, refsOf_append, Tree.linksAll, links_collapse (by rw [Tree.links])]
    exact rel_append (terms_linked hus) (sequences_linked hts)

end

/-- **The links of an expression's tree are the nodes of the names that the expression refers to.** -/
theorem exprTree_linked {e : Expr} {t : Tree} (h : exprTree nodes e = .ok t) :
    Linked nodes (refsOf (sequenceAtoms skips e)) (t.links skips) :=
  linked_choice sequences_linked h

end

/-! ### Proper expressions -/

/-- A raw text is as demanded. -/
def Atom.IsProper (D : Text → Prop) : Atom → Prop
  | .leaf .raw arg => D arg
  | _ => True

section

variable {D : Text → Prop}

theorem map_eq_ok {ε α β : Type} {f : α → β} {r : Except ε α} {y : β} (h : r.map f = .ok y) :
    ∃ x, r = .ok x ∧ f x = y := by
  cases r with
  | error => cases h
  | ok x =>
    cases h
    exact ⟨x, rfl, rfl⟩

variable {l : Leaf} {t : Tree} {atoms more : List Atom}

/-- A leaf with a text is proper if its text is, where that is a raw one. -/
theorem LeafWord.leaf_isProper {w : LeafWord} {arg : Text} (h : w.leaf arg = .ok l) (hraw : w = .raw → D arg) :
    l.IsProper D := by
  have hcharacter : ∀ {r : Except ArgumentError Character},
      ofArgument (r.map Leaf.character) = .ok l → l.IsProper D := by
    intro r h
    obtain ⟨c, -, rfl⟩ := map_eq_ok (ofArgument_eq_ok.1 h)
    trivial
  cases w with
  | char =>
    obtain ⟨c, -, rfl⟩ := map_eq_ok h
    trivial
  | raw =>
    cases h
    exact hraw rfl
  | category | notcategory =>
    obtain ⟨c, hc, rfl⟩ := map_eq_ok (ofArgument_eq_ok.1 h)
    obtain ⟨_, -, rfl⟩ := map_eq_ok hc
    exact fun code h => by cases h
  | hex | octal | unicode => exact hcharacter h
  | control =>
    obtain ⟨c, -, h⟩ := bind_eq_ok.1 h
    exact hcharacter h
  | comment =>
    have h := ofArgument_eq_ok.1 h
    unfold Leaf.checkedComment at h
    split at h
    · cases h
    · cases h
      trivial

/-- A backreference is proper. -/
theorem GroupRef.backreference_isProper {r : GroupRef} (h : r.backreference = .ok l) : l.IsProper D := by
  unfold backreference at h
  split at h
  · obtain ⟨_, -, rfl⟩ := map_eq_ok (ofArgument_eq_ok.1 h)
    trivial
  · obtain ⟨n, -, h⟩ := bind_eq_ok.1 h
    cases h
    trivial

theorem ClassWord.leaf_isProper (w : ClassWord) : w.leaf.IsProper D := by
  cases w with
  | any => trivial
  | digit | notdigit | word | notword | space | notspace => exact fun code h => by cases h

theorem AnchorWord.leaf_isProper (w : AnchorWord) : (Leaf.anchor w.kind).IsProper D := by
  intro code h
  cases w <;> cases h

theorem take_eq_ok {α : Type} {gap : Gap} {o : Option α} {x : α} : take gap o = .ok x ↔ o = some x := by
  cases o <;> simp [take]

/-- The members that an entry adds can be members of sets, and the ends of its ranges are characters. -/
theorem SetItem.elements_isProper (D : Text → Prop) {i : SetItem} {ranges : List (Range Element)}
    {members : List Element} (h : i.elements = .ok (ranges, members)) :
    (∀ m ∈ members, m.IsMember D) ∧ ∀ r ∈ ranges, r.first.IsEndpoint ∧ r.last.IsEndpoint := by
  unfold elements at h
  split at h
  · next which _ =>
    obtain ⟨kind, hkind, h⟩ := bind_eq_ok.1 h
    cases h
    refine ⟨forall_mem_singleton.2 ⟨_, rfl, trivial, ?_⟩, forall_mem_nil _⟩
    rintro code rfl
    cases which <;> cases hkind
  · obtain ⟨c, hc, h⟩ := bind_eq_ok.1 h
    cases h
    obtain ⟨_, -, rfl⟩ := map_eq_ok (ofArgument_eq_ok.1 hc)
    refine ⟨forall_mem_singleton.2 ?_, forall_mem_nil _⟩
    exact ⟨_, rfl, trivial, fun code h => by cases h⟩
  · obtain ⟨_, -, h⟩ := bind_eq_ok.1 h
    obtain ⟨a, -, h⟩ := bind_eq_ok.1 h
    obtain ⟨b, -, h⟩ := bind_eq_ok.1 h
    obtain ⟨_, -, h⟩ := bind_eq_ok.1 h
    cases h
    exact ⟨forall_mem_nil _, forall_mem_singleton.2 ⟨⟨_, rfl⟩, ⟨_, rfl⟩⟩⟩
  · obtain ⟨text, -, h⟩ := bind_eq_ok.1 h
    cases h
    refine ⟨fun m hm => ?_, forall_mem_nil _⟩
    obtain ⟨g, -, rfl⟩ := mem_map.1 hm
    exact ⟨_, rfl, trivial, trivial⟩

/-- What entries add is as it should be in a set. -/
theorem itemElements_isProper (D : Text → Prop) : ∀ {is : List PlacedItem} {ranges : List (Range Element)}
    {members : List Element}, itemElements is = .ok (ranges, members) →
    (∀ m ∈ members, m.IsMember D) ∧ ∀ r ∈ ranges, r.first.IsEndpoint ∧ r.last.IsEndpoint
  | [], _, _, h => by
    cases h
    exact ⟨forall_mem_nil _, forall_mem_nil _⟩
  | i :: is, _, _, h => by
    obtain ⟨⟨ranges, members⟩, hfirst, h⟩ := bind_eq_ok.1 h
    obtain ⟨⟨ranges', members'⟩, hrest, h⟩ := bind_eq_ok.1 h
    cases h
    obtain ⟨hm, hr⟩ := SetItem.elements_isProper D (locate_eq_ok.1 hfirst)
    obtain ⟨hm', hr'⟩ := itemElements_isProper D hrest
    exact ⟨forall_mem_append.2 ⟨hm, hm'⟩, forall_mem_append.2 ⟨hr, hr'⟩⟩

/-- **The tree of a set is proper.** -/
theorem SetExpr.tree_isProper {s : SetExpr} (h : s.tree = .ok t) : t.IsProper D := by
  obtain ⟨ranges, members, ranges', members', hitems, hexcept, rfl⟩ := exists_of_tree_eq_ok h
  obtain ⟨hm, hr⟩ := itemElements_isProper D hitems
  obtain ⟨hm', hr'⟩ := itemElements_isProper D hexcept
  exact ⟨forall_mem_append.2 ⟨hm, hm'⟩, forall_mem_append.2 ⟨hr, hr'⟩⟩

/-- All atoms of a list are proper. -/
abbrev AllProper (D : Text → Prop) (atoms : List Atom) : Prop := ∀ a ∈ atoms, a.IsProper D

/-- A choice is proper if its branches are. -/
theorem isProper_choice {branches : Placed (List Tree)} (h : ∀ {ts}, branches = .ok ts → Tree.AllProper D ts)
    (ht : choice branches = .ok t) : t.IsProper D := by
  obtain ⟨ts, hts, rfl⟩ := choice_eq_ok.1 ht
  exact isProper_collapse (h hts) (h hts)

theorem AllProper.tail {a : Atom} (h : AllProper D (a :: atoms)) :
    AllProper D atoms := fun b hb => h b (mem_cons_of_mem a hb)

theorem AllProper.left (h : AllProper D (atoms ++ more)) :
    AllProper D atoms := fun b hb => h b (mem_append_left more hb)

theorem AllProper.right (h : AllProper D (atoms ++ more)) :
    AllProper D more := fun b hb => h b (mem_append_right atoms hb)

variable {nodes : Text → Option NodeId}

mutual

/-- The tree of an atom is proper, by induction on the expression that it is in. -/
theorem Atom.tree_isProper : ∀ {a : Atom} {pos : Position} {t : Tree}, a.tree nodes pos = .ok t →
    AllProper D (a.atoms fun _ => false) → t.IsProper D
  | .literal text, _, _, h, _ => by
    cases h
    trivial
  | .parens body, pos, _, h, hp => by
    obtain ⟨t, ht, h⟩ := bind_eq_ok.1 h
    cases h
    rw [Tree.IsProper]
    exact isProper_choice (sequences_isProper · hp.tail) ht
  | .set s, _, _, h, _ => SetExpr.tree_isProper h
  | .range min max zeros, _, t, h, _ =>
    (numericRange_isDigital (mapError_eq_ok.1 (locate_eq_ok.1 h))).isProper D
  | .group which label body, pos, _, h, hp => by
    obtain ⟨t, ht, h⟩ := bind_eq_ok.1 h
    obtain ⟨how, -, h⟩ := bind_eq_ok.1 h
    cases h
    rw [Tree.IsProper]
    exact isProper_choice (sequences_isProper · hp.tail) ht
  | .leaf which arg, _, _, h, hp => by
    obtain ⟨l, hl, h⟩ := bind_eq_ok.1 h
    cases h
    refine LeafWord.leaf_isProper (locate_eq_ok.1 hl) ?_
    rintro rfl
    exact hp _ (mem_singleton.2 rfl)
  | .backref group, _, _, h, _ => by
    obtain ⟨l, hl, h⟩ := bind_eq_ok.1 h
    cases h
    exact GroupRef.backreference_isProper (locate_eq_ok.1 hl)
  | .cond test yes none, _, _, h, hp => by
    obtain ⟨t, ht, h⟩ := bind_eq_ok.1 h
    obtain ⟨c, -, h⟩ := bind_eq_ok.1 h
    cases h
    exact ⟨rfl, isProper_choice (sequences_isProper · hp.tail) ht, trivial⟩
  | .cond test yes (some no), _, _, h, hp => by
    obtain ⟨t, ht, h⟩ := bind_eq_ok.1 h
    obtain ⟨u, hu, h⟩ := bind_eq_ok.1 h
    obtain ⟨c, -, h⟩ := bind_eq_ok.1 h
    cases h
    exact ⟨rfl, isProper_choice (sequences_isProper · hp.tail.left) ht,
      isProper_choice (sequences_isProper · hp.tail.right) hu⟩
  | .modify flags body, _, _, h, hp => by
    obtain ⟨⟨on, off⟩, -, h⟩ := bind_eq_ok.1 h
    obtain ⟨t, ht, h⟩ := bind_eq_ok.1 h
    cases h
    rw [Tree.IsProper]
    exact isProper_choice (sequences_isProper · hp.tail) ht
  | .cls which, _, _, h, _ | .anchor which, _, _, h, _ => by
    cases h
    exact which.leaf_isProper
  | .ref name, pos, t, h, _ => by
    rw [Atom.tree] at h
    split at h
    · cases h
      trivial
    · cases h

theorem Term.tree_isProper : ∀ {u : Term} {t : Tree}, u.tree nodes = .ok t →
    AllProper D (u.atoms fun _ => false) → t.IsProper D
  | .mk pos a none, _, h, hp => by
    obtain ⟨t, ht, h⟩ := bind_eq_ok.1 h
    cases h
    exact Atom.tree_isProper ht hp
  | .mk pos a (some q), _, h, hp => by
    obtain ⟨t, ht, h⟩ := bind_eq_ok.1 h
    obtain ⟨b, hb, h⟩ := bind_eq_ok.1 h
    cases h
    have hskip : isSkipped (fun _ => false) (some q) = false := by
      rw [isSkipped, locate_eq_ok.1 hb]
    rw [Term.atoms, hskip] at hp
    rw [Tree.IsProper]
    exact Atom.tree_isProper ht hp

theorem terms_isProper : ∀ {us : List Term} {ts : List Tree}, termTrees nodes us = .ok ts →
    AllProper D (termAtoms (fun _ => false) us) → Tree.AllProper D ts
  | [], _, h, _ => by
    cases h
    trivial
  | u :: us, _, h, hp => by
    obtain ⟨t, ht, h⟩ := bind_eq_ok.1 h
    obtain ⟨ts, hts, h⟩ := bind_eq_ok.1 h
    cases h
    exact ⟨Term.tree_isProper ht hp.left, terms_isProper hts hp.right⟩

/-- The trees of proper sequences are proper. -/
theorem sequences_isProper : ∀ {ss : List (List Term)} {ts : List Tree},
    sequenceTrees nodes ss = .ok ts →
    AllProper D (sequenceAtoms (fun _ => false) ss) → Tree.AllProper D ts
  | [], _, h, _ => by
    cases h
    trivial
  | s :: ss, _, h, hp => by
    obtain ⟨us, hus, h⟩ := bind_eq_ok.1 h
    obtain ⟨ts, hts, h⟩ := bind_eq_ok.1 h
    cases h
    have hus := terms_isProper hus hp.left
    exact ⟨isProper_collapse hus hus, sequences_isProper hts hp.right⟩

end

/-- **The tree of a proper expression is proper.** -/
theorem exprTree_isProper {e : Expr} (h : exprTree nodes e = .ok t)
    (hp : AllProper D (sequenceAtoms (fun _ => false) e)) : t.IsProper D :=
  isProper_choice (sequences_isProper · hp) h

end

/-! ### Substitution -/

section

variable {nodes nodes' : Text → Option NodeId} {ρ : Text → Atom} {σ : Ref → Tree}

/-- Where `x` is referred to, the tree of `ρ x` is the one that `σ` puts in the place of the node. -/
abbrev Substitutes (nodes nodes' : Text → Option NodeId) (ρ : Text → Atom) (σ : Ref → Tree)
    (atoms : List Atom) : Prop :=
  ∀ x, .ref x ∈ atoms → ∀ i, nodes x = some i → ∀ pos, (ρ x).tree nodes' pos = .ok (σ (some i))

theorem Substitutes.mono {atoms more : List Atom} (h : Substitutes nodes nodes' ρ σ more)
    (hsub : atoms ⊆ more) : Substitutes nodes nodes' ρ σ atoms := fun x hx => h x (hsub hx)

/-- A choice of branches with other atoms is the choice, grafted. -/
theorem choice_graftAll {branches branches' : Placed (List Tree)} {t : Tree}
    (h : ∀ {ts}, branches = .ok ts → branches' = .ok (Tree.graftAll σ ts)) (ht : choice branches = .ok t) :
    choice branches' = .ok (t.graft σ) := by
  obtain ⟨ts, hts, rfl⟩ := choice_eq_ok.1 ht
  exact choice_eq_ok.2 ⟨_, h hts, collapse_graftAll rfl⟩

mutual

/-- The tree of an atom in which references were replaced is its tree, grafted. -/
theorem Atom.tree_subst (hnone : σ none = .absent) : ∀ {a : Atom} {pos : Position} {t : Tree},
    a.tree nodes pos = .ok t → Substitutes nodes nodes' ρ σ (a.atoms fun _ => false) →
    (a.subst ρ).tree nodes' pos = .ok (t.graft σ)
  | .literal text, _, _, h, _ | .cls which, _, _, h, _ | .anchor which, _, _, h, _ => by
    cases h
    rfl
  | .parens body, pos, _, h, hs => by
    obtain ⟨t, ht, h⟩ := bind_eq_ok.1 h
    cases h
    have hbody := choice_graftAll (sequences_subst hnone · (hs.mono (subset_cons_self _ _))) ht
    rw [Atom.subst, Atom.tree, hbody]
    rfl
  | .set s, pos, _, h, _ => by
    obtain ⟨_, _, _, _, -, -, rfl⟩ := SetExpr.exists_of_tree_eq_ok h
    exact h
  | .range min max zeros, _, t, h, _ => by
    rw [(numericRange_isDigital (mapError_eq_ok.1 (locate_eq_ok.1 h))).graft_eq]
    exact h
  | .group which label body, pos, _, h, hs => by
    obtain ⟨t, ht, h⟩ := bind_eq_ok.1 h
    obtain ⟨how, hhow, h⟩ := bind_eq_ok.1 h
    cases h
    have hbody := choice_graftAll (sequences_subst hnone · (hs.mono (subset_cons_self _ _))) ht
    rw [Atom.subst, Atom.tree, hbody, hhow]
    rfl
  | .leaf which arg, _, _, h, _ | .backref group, _, _, h, _ => by
    obtain ⟨l, hl, h⟩ := bind_eq_ok.1 h
    cases h
    rw [Atom.subst, Atom.tree, hl]
    rfl
  | .cond test yes none, _, _, h, hs => by
    obtain ⟨t, ht, h⟩ := bind_eq_ok.1 h
    obtain ⟨c, hc, h⟩ := bind_eq_ok.1 h
    cases h
    have hyes := choice_graftAll (sequences_subst hnone · (hs.mono (subset_cons_self _ _))) ht
    rw [Atom.subst, Atom.tree, hyes, hc, Tree.graft, Tree.absent, Tree.graft, hnone]
    rfl
  | .cond test yes (some no), _, _, h, hs => by
    obtain ⟨t, ht, h⟩ := bind_eq_ok.1 h
    obtain ⟨u, hu, h⟩ := bind_eq_ok.1 h
    obtain ⟨c, hc, h⟩ := bind_eq_ok.1 h
    cases h
    have hs := hs.mono (subset_cons_self _ _)
    have hyes := choice_graftAll (sequences_subst hnone · (hs.mono (subset_append_left _ _))) ht
    have hno := choice_graftAll (sequences_subst hnone · (hs.mono (subset_append_right _ _))) hu
    rw [Atom.subst, Atom.tree, hyes, hno, hc, Tree.graft, Tree.absent, Tree.graft, hnone]
    rfl
  | .modify flags body, _, _, h, hs => by
    obtain ⟨⟨on, off⟩, hflags, h⟩ := bind_eq_ok.1 h
    obtain ⟨t, ht, h⟩ := bind_eq_ok.1 h
    cases h
    have hbody := choice_graftAll (sequences_subst hnone · (hs.mono (subset_cons_self _ _))) ht
    rw [Atom.subst, Atom.tree, hflags, hbody]
    rfl
  | .ref name, pos, t, h, hs => by
    rw [Atom.tree] at h
    split at h
    · next i hi =>
      cases h
      exact hs name (mem_singleton.2 rfl) i hi pos
    · cases h

theorem Term.tree_subst (hnone : σ none = .absent) : ∀ {u : Term} {t : Tree},
    u.tree nodes = .ok t → Substitutes nodes nodes' ρ σ (u.atoms fun _ => false) →
    (u.subst ρ).tree nodes' = .ok (t.graft σ)
  | .mk pos a none, _, h, hs => by
    obtain ⟨t, ht, h⟩ := bind_eq_ok.1 h
    cases h
    rw [Term.subst, Term.tree, Atom.tree_subst hnone ht hs]
    rfl
  | .mk pos a (some q), _, h, hs => by
    obtain ⟨t, ht, h⟩ := bind_eq_ok.1 h
    obtain ⟨b, hb, h⟩ := bind_eq_ok.1 h
    cases h
    have hskip : isSkipped (fun _ => false) (some q) = false := by
      rw [isSkipped, locate_eq_ok.1 hb]
    rw [Term.atoms, hskip] at hs
    rw [Term.subst, Term.tree, Atom.tree_subst hnone ht hs]
    simp only [hb]
    rfl

theorem terms_subst (hnone : σ none = .absent) : ∀ {us : List Term} {ts : List Tree},
    termTrees nodes us = .ok ts → Substitutes nodes nodes' ρ σ (termAtoms (fun _ => false) us) →
    termTrees nodes' (substTerms ρ us) = .ok (Tree.graftAll σ ts)
  | [], _, h, _ => by
    cases h
    rfl
  | u :: us, _, h, hs => by
    obtain ⟨t, ht, h⟩ := bind_eq_ok.1 h
    obtain ⟨ts, hts, h⟩ := bind_eq_ok.1 h
    cases h
    rw [substTerms, termTrees, Term.tree_subst hnone ht (hs.mono (subset_append_left _ _)),
      terms_subst hnone hts (hs.mono (subset_append_right _ _))]
    rfl

/-- The trees of sequences in which references were replaced are their trees, grafted. -/
theorem sequences_subst (hnone : σ none = .absent) : ∀ {ss : List (List Term)} {ts : List Tree},
    sequenceTrees nodes ss = .ok ts →
    Substitutes nodes nodes' ρ σ (sequenceAtoms (fun _ => false) ss) →
    sequenceTrees nodes' (substSequences ρ ss) = .ok (Tree.graftAll σ ts)
  | [], _, h, _ => by
    cases h
    rfl
  | s :: ss, _, h, hs => by
    obtain ⟨us, hus, h⟩ := bind_eq_ok.1 h
    obtain ⟨ts, hts, h⟩ := bind_eq_ok.1 h
    cases h
    rw [substSequences, sequenceTrees, terms_subst hnone hus (hs.mono (subset_append_left _ _)),
      sequences_subst hnone hts (hs.mono (subset_append_right _ _)), Tree.graftAll, ← collapse_graftAll rfl]
    rfl

end

/-- **An expression with other atoms in the place of its references has the same tree,** with the trees of these atoms
grafted. -/
theorem exprTree_subst (hnone : σ none = .absent) {e : Expr} {t : Tree} (h : exprTree nodes e = .ok t)
    (hs : Substitutes nodes nodes' ρ σ (sequenceAtoms (fun _ => false) e)) :
    exprTree nodes' (substSequences ρ e) = .ok (t.graft σ) :=
  choice_graftAll (sequences_subst hnone · hs) h

end

mutual

/-- References in the place of references change nothing. -/
theorem Atom.subst_ref : ∀ a : Atom, a.subst .ref = a
  | .literal _ | .set _ | .range _ _ _ | .leaf _ _ | .backref _ | .cls _ | .anchor _ | .ref _ => rfl
  | .parens body | .group _ _ body | .modify _ body => by rw [Atom.subst, substSequences_ref body]
  | .cond _ yes none => by rw [Atom.subst, substSequences_ref yes]
  | .cond _ yes (some no) => by rw [Atom.subst, substSequences_ref yes, substSequences_ref no]

theorem Term.subst_ref : ∀ u : Term, u.subst .ref = u
  | .mk pos a q => by rw [Term.subst, Atom.subst_ref a]

theorem substTerms_ref : ∀ us : List Term, substTerms .ref us = us
  | [] => rfl
  | u :: us => by rw [substTerms, Term.subst_ref u, substTerms_ref us]

theorem substSequences_ref : ∀ ss : List (List Term), substSequences .ref ss = ss
  | [] => rfl
  | s :: ss => by rw [substSequences, substTerms_ref s, substSequences_ref ss]

end

end RegexBuilder.Description
