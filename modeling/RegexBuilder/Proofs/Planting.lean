/-
# Trees that stand in a graph

A tree stands at a reference if the reference leads to a node of the tree's kind at whose references the children
stand (`Tree.Stands`), as they do when the tree is planted. The numbers of these nodes are bounded from below, so a
tree keeps standing while nodes with smaller numbers change; the groups of definitions are such nodes.

What a planting does is said by triples (`Planting.Makes`) about facts that hold from some point on.
-/

import RegexBuilder.Pattern.Tree
import RegexBuilder.Proofs.Copying

namespace RegexBuilder

open List

/-! ### Nodes that stay -/

namespace Graph

/-- The nodes of `g` with numbers from `low` on stand in `g'`, too. -/
def Keeps (low : NodeId) (g g' : Graph) : Prop :=
  ∀ i n, low ≤ i → g.node? i = some n → g'.node? i = some n

/-- `r` leads to the node `n`, with a number from `low` on. -/
def Holds (g : Graph) (low : NodeId) (r : Ref) (n : Node) : Prop :=
  ∃ i, r = some i ∧ low ≤ i ∧ g.node? i = some n

variable {g g' : Graph} {low : NodeId} {r : Ref} {n : Node}

theorem Keeps.refl (low : NodeId) (g : Graph) : g.Keeps low g := fun _ _ _ h => h

theorem Keeps.trans {h : Graph} (h₁ : g.Keeps low g') (h₂ : g'.Keeps low h) : g.Keeps low h :=
  fun i n hi hn => h₂ i n hi (h₁ i n hi hn)

theorem Extends.keeps (h : g.Extends g') (low : NodeId) : g.Keeps low g' := fun i n _ => h i n

/-- A graph with more nodes is not smaller. -/
theorem Extends.size_le (h : g.Extends g') : g.size ≤ g'.size := by
  by_contra hlt
  have hnode : g.node? g'.size = some g.nodes[g'.size]! := by
    simp only [node?, size] at hlt ⊢
    grind
  have hnode' := h _ _ hnode
  simp [node?, size] at hnode'

theorem Holds.mono {low' : NodeId} (h : g.Holds low r n) (hlow : low' ≤ low) : g.Holds low' r n := by
  obtain ⟨i, rfl, hi, hn⟩ := h
  exact ⟨i, rfl, Nat.le_trans hlow hi, hn⟩

theorem Holds.deref? (h : g.Holds low r n) : g.deref? r = some n := by
  obtain ⟨i, rfl, -, hn⟩ := h
  exact hn

/-- The node that was put in place is there. -/
theorem node?_put_self (c : Node) {i : NodeId} (h : g.node? i = some n) : (g.put i c).node? i = some c := by
  simp only [put, node?] at h ⊢
  grind

/-- All other nodes stay. -/
theorem node?_put_of_ne (c : Node) {i j : Nat} (h : i ≠ j) : (g.put i c).node? j = g.node? j := by
  simp only [put, node?]
  grind

theorem size_put (g : Graph) (i : NodeId) (c : Node) : (g.put i c).size = g.size := by
  simp [put, size]

/-- A node with a small number may change. -/
theorem keeps_put (g : Graph) {i : NodeId} (hi : i < low) (c : Node) : g.Keeps low (g.put i c) := by
  intro j n hj hn
  rw [node?_put_of_ne c (Nat.ne_of_lt (Nat.lt_of_lt_of_le hi hj))]
  exact hn

end Graph

/-! ### Standing trees -/

/-- The element is a new leaf, and its node is there. -/
def Element.Stands (g : Graph) (low : NodeId) (e : Element) (r : Ref) : Prop :=
  ∃ l, e = .fresh l ∧ g.Holds low r (.leaf l)

mutual

/-- The nodes of the tree are there, with numbers from `low` on; `P` relates an old reference to the
one in its place. -/
def Tree.Stands (g : Graph) (low : NodeId) (P : Ref → Ref → Prop) : Tree → Ref → Prop
  | .existing r₀, r => P r₀ r
  | .leaf l, r => g.Holds low r (.leaf l)
  | .set s, r => ∃ s', g.Holds low r (.set s') ∧ s.Alike (Element.Stands g low) s'
  | .concat ts, r => ∃ cs, g.Holds low r (.concat cs) ∧ Tree.AllStand g low P ts cs
  | .alternation ts, r => ∃ cs, g.Holds low r (.alternation cs) ∧ Tree.AllStand g low P ts cs
  | .quantified b t, r => ∃ c, g.Holds low r (.quantified b c) ∧ Tree.Stands g low P t c
  | .group t, r => ∃ c, g.Holds low r (.group c) ∧ Tree.Stands g low P t c
  | .enclosed how t, r => ∃ c, g.Holds low r (.enclosed how c) ∧ Tree.Stands g low P t c
  | .conditional test e yes no, r => ∃ e' yes' no', g.Holds low r (.conditional test e' yes' no') ∧
      Tree.Stands g low P e e' ∧ Tree.Stands g low P yes yes' ∧ Tree.Stands g low P no no'
  | .modified on off t, r => ∃ c, g.Holds low r (.modified on off c) ∧ Tree.Stands g low P t c

/-- The trees stand at the references, one by one. -/
def Tree.AllStand (g : Graph) (low : NodeId) (P : Ref → Ref → Prop) : List Tree → List Ref → Prop
  | [], cs => cs = []
  | t :: ts, cs => ∃ c cs', cs = c :: cs' ∧ Tree.Stands g low P t c ∧ Tree.AllStand g low P ts cs'

end

namespace Tree

variable {g : Graph} {low : NodeId} {P : Ref → Ref → Prop}

/-- Trees stand one by one. -/
theorem allStand_iff {ts : List Tree} {cs : List Ref} :
    AllStand g low P ts cs ↔ Forall₂ (Stands g low P) ts cs := by
  induction ts generalizing cs with
  | nil => rw [AllStand, forall₂_nil_left_iff]
  | cons t ts ih =>
    simp only [AllStand, ih, forall₂_cons_left_iff]
    tauto

mutual

/-- The numbers of the old nodes in the tree, up to those below a quantifier with skipped bounds. -/
def links (skips : Bounds → Bool) : Tree → List NodeId
  | existing r => r.toList
  | leaf _ => []
  | set _ => []
  | concat ts => linksAll skips ts
  | alternation ts => linksAll skips ts
  | quantified b t => if skips b then [] else links skips t
  | group t => links skips t
  | enclosed _ t => links skips t
  | conditional _ e yes no => links skips e ++ links skips yes ++ links skips no
  | modified _ _ t => links skips t

/-- The numbers of the old nodes in the trees. -/
def linksAll (skips : Bounds → Bool) : List Tree → List NodeId
  | [] => []
  | t :: ts => links skips t ++ linksAll skips ts

end

theorem elements_mono {low' : NodeId} (hlow : low' ≤ low) {s : CharacterSet Element} {s' : CharacterSet Ref}
    (h : s.Alike (Element.Stands g low) s') : s.Alike (Element.Stands g low') s' := by
  refine h.mono ?_
  rintro e r ⟨l, rfl, hl⟩
  exact ⟨l, rfl, hl.mono hlow⟩

end Tree

/-! ### Proper trees -/

/-- A raw text is as demanded by `D`, and a class or an anchor has a declared kind. -/
def Leaf.IsProper (D : Text → Prop) : Leaf → Prop
  | .raw t => D t
  | .charClass c => ∀ code, c.kind ≠ .undeclared code
  | .anchor kind => ∀ code, kind ≠ .undeclared code
  | _ => True

/-- A leaf that may be a member of a set. -/
def Leaf.IsMember : Leaf → Prop
  | .character _ | .charClass _ => True
  | _ => False

/-- A proper leaf; the members of a set are characters and classes, the endpoints of its ranges are
characters, and a conditional has no expression of its own. -/
def Node.IsProper (D : Text → Prop) (g : Graph) : Node → Prop
  | .leaf l => l.IsProper D
  | .set s =>
    (∀ m ∈ s.members ++ s.subtractedMembers, ∃ l, g.deref? m = some (.leaf l) ∧ l.IsMember) ∧
    ∀ r ∈ s.ranges ++ s.subtractedRanges, (∃ c, g.deref? r.first = some (.leaf (.character c))) ∧
      ∃ c, g.deref? r.last = some (.leaf (.character c))
  | .conditional _ e _ _ => e = none
  | _ => True

/-- All nodes are proper. -/
def Graph.IsProper (D : Text → Prop) (g : Graph) : Prop :=
  ∀ i n, g.node? i = some n → n.IsProper D g

/-- A new leaf that may be a member of a set. -/
def Element.IsMember (D : Text → Prop) (e : Element) : Prop :=
  ∃ l, e = .fresh l ∧ l.IsMember ∧ l.IsProper D

/-- A new character. -/
def Element.IsEndpoint (e : Element) : Prop := ∃ c, e = .fresh (.character c)

/-- The elements of the set are new, and they are what they may be. -/
def Element.IsProperSet (D : Text → Prop) (s : CharacterSet Element) : Prop :=
  (∀ m ∈ s.members ++ s.subtractedMembers, m.IsMember D) ∧
  ∀ r ∈ s.ranges ++ s.subtractedRanges, r.first.IsEndpoint ∧ r.last.IsEndpoint

mutual

/-- All new nodes of the tree are proper. -/
def Tree.IsProper (D : Text → Prop) : Tree → Prop
  | .existing _ => True
  | .leaf l => l.IsProper D
  | .set s => Element.IsProperSet D s
  | .concat ts => Tree.AllProper D ts
  | .alternation ts => Tree.AllProper D ts
  | .quantified _ t => Tree.IsProper D t
  | .group t => Tree.IsProper D t
  | .enclosed _ t => Tree.IsProper D t
  | .conditional _ e yes no => e = .absent ∧ Tree.IsProper D yes ∧ Tree.IsProper D no
  | .modified _ _ t => Tree.IsProper D t

/-- All new nodes of the trees are proper. -/
def Tree.AllProper (D : Text → Prop) : List Tree → Prop
  | [] => True
  | t :: ts => Tree.IsProper D t ∧ Tree.AllProper D ts

end

/-- Trees are proper one by one. -/
theorem Tree.allProper_iff {D : Text → Prop} {ts : List Tree} : AllProper D ts ↔ ∀ t ∈ ts, t.IsProper D := by
  induction ts with
  | nil => simp [AllProper]
  | cons t ts ih => simp [AllProper, ih]

section

variable {D : Text → Prop} {g g' : Graph}

/-- A proper node stays proper while the leaves stay. -/
theorem Node.IsProper.mono {n : Node} (h : n.IsProper D g)
    (hleaf : ∀ r l, g.deref? r = some (.leaf l) → g'.deref? r = some (.leaf l)) : n.IsProper D g' := by
  cases n with
  | set =>
    obtain ⟨hmembers, hranges⟩ := h
    refine ⟨fun m hm => ?_, fun r hr => ⟨?_, ?_⟩⟩
    · obtain ⟨l, hl, hmember⟩ := hmembers m hm
      exact ⟨l, hleaf m l hl, hmember⟩
    · exact (hranges r hr).1.imp fun _ => hleaf _ _
    · exact (hranges r hr).2.imp fun _ => hleaf _ _
  | leaf | conditional => exact h
  | concat | alternation | quantified | group | enclosed | modified => trivial

/-- A proper node may be added to a proper graph. -/
theorem Graph.IsProper.add (hg : g.IsProper D) {n : Node} (hn : n.IsProper D g) : (g.add n).2.IsProper D := by
  have hleaf : ∀ r l, g.deref? r = some (.leaf l) → (g.add n).2.deref? r = some (.leaf l) := by
    intro r l hr
    obtain ⟨i, rfl, hi⟩ := Option.bind_eq_some_iff.1 hr
    exact g.extends_add n i _ hi
  intro i m hm
  simp only [Graph.add, node?, Array.getElem?_push] at hm
  split at hm
  · cases hm
    exact hn.mono hleaf
  · exact (hg i m hm).mono hleaf

/-- A group may get another child. -/
theorem Graph.IsProper.put_group (hg : g.IsProper D) {i : NodeId} {c₀ : Ref}
    (hi : g.node? i = some (.group c₀)) (c : Ref) : (g.put i (.group c)).IsProper D := by
  have hleaf : ∀ r l, g.deref? r = some (.leaf l) →
      (g.put i (.group c)).deref? r = some (.leaf l) := by
    intro r l hr
    obtain ⟨j, rfl, hj⟩ := Option.bind_eq_some_iff.1 hr
    have hij : i ≠ j := by
      rintro rfl
      rw [hi] at hj
      cases hj
    show (g.put i (.group c)).node? j = _
    rw [node?_put_of_ne _ hij]
    exact hj
  intro j m hm
  by_cases hij : i = j
  · subst hij
    rw [node?_put_self _ hi] at hm
    cases hm
    trivial
  · rw [node?_put_of_ne _ hij] at hm
    exact (hg j m hm).mono hleaf

end

/-! ### Plantings -/

namespace Planting

variable {α β : Type} {low : NodeId} {I F F' : Graph → Prop}

/-- Where the facts `F` hold from now on, `p` adds nodes only and keeps the invariant `I`, and what it
gives has the property `Q` from then on. -/
def Makes (low : NodeId) (I F : Graph → Prop) (p : Planting α) (Q : Graph → α → Prop) : Prop :=
  ∀ g, low ≤ g.size → I g → (∀ h, g.Keeps low h → F h) →
    I (p g).2 ∧ g.Extends (p g).2 ∧ ∀ h, (p g).2.Keeps low h → Q h (p g).1

namespace Makes

variable {p : Planting α} {Q Q' : Graph → α → Prop}

theorem pure {a : α} (h : ∀ g, F g → Q g a) : Makes low I F (Pure.pure a) Q := fun g _ hI hF =>
  ⟨hI, .refl g, fun h' hh => h h' (hF h' hh)⟩

theorem mono (hp : Makes low I F p Q) (hF : ∀ g, F' g → F g) (hQ : ∀ g a, F' g → Q g a → Q' g a) :
    Makes low I F' p Q' := by
  intro g hlow hI hF'
  obtain ⟨h₁, h₂, h₃⟩ := hp g hlow hI fun h hh => hF h (hF' h hh)
  exact ⟨h₁, h₂, fun h hh => hQ h _ (hF' h ((h₂.keeps low).trans hh)) (h₃ h hh)⟩

theorem bind {k : α → Planting β} {R : Graph → β → Prop} (hp : Makes low I F p Q)
    (hk : ∀ a, Makes low I (fun g => F g ∧ Q g a) (k a) R) : Makes low I F (p >>= k) R := by
  intro g hlow hI hF
  obtain ⟨h₁, h₂, h₃⟩ := hp g hlow hI hF
  obtain ⟨h₄, h₅, h₆⟩ := hk (p g).1 (p g).2 (Nat.le_trans hlow h₂.size_le) h₁
    fun h hh => ⟨hF h ((h₂.keeps low).trans hh), h₃ h hh⟩
  exact ⟨h₄, h₂.trans h₅, h₆⟩

theorem mapM {f : α → Planting β} {R : Graph → α → β → Prop} :
    ∀ {l : List α}, (∀ a ∈ l, Makes low I F (f a) fun g b => R g a b) →
      Makes low I F (l.mapM f) fun g bs => Forall₂ (R g) l bs
  | [], _ => by
    rw [mapM_nil]
    exact .pure fun _ _ => .nil
  | a :: l, h => by
    rw [mapM_cons]
    have hl := mapM fun b hb => h b (mem_cons_of_mem a hb)
    refine (h a mem_cons_self).bind fun b => ?_
    refine (hl.mono (fun _ hF => hF.1) fun _ _ _ hbs => hbs).bind fun bs => ?_
    exact .pure fun _ hF => .cons hF.1.2 hF.2

end Makes

/-- A proper node may be added. -/
theorem add_makes {D : Text → Prop} {n : Node} (h : ∀ g, F g → n.IsProper D g) :
    Makes low (Graph.IsProper D) F (add n) fun g r => g.Holds low r n := fun g hlow hI hF =>
  ⟨hI.add (h g (hF g (.refl low g))), g.extends_add n, fun _ hh => ⟨_, rfl, hlow, hh _ n hlow (g.node?_add n)⟩⟩

/-- What was made becomes part of a new node. -/
theorem Makes.thenAdd {D : Text → Prop} {p : Planting α} {Q : Graph → α → Prop} {node : α → Node}
    {R : Graph → Ref → Prop} (hp : Makes low (Graph.IsProper D) F p Q) (hproper : ∀ g a, Q g a → (node a).IsProper D g)
    (hR : ∀ g a r, F g → Q g a → g.Holds low r (node a) → R g r) :
    Makes low (Graph.IsProper D) F (p >>= fun a => add (node a)) R :=
  hp.bind fun a => (add_makes fun g hF => hproper g a hF.2).mono (fun _ hF => hF) fun g r hF hr => hR g a r hF.1 hF.2 hr

end Planting

/-! ### What planting a tree makes -/

section

open Planting (Makes add_makes)

variable {D : Text → Prop} {low : NodeId} {F : Graph → Prop}

namespace Element

theorem plant_makes {l : Leaf} (h : l.IsProper D) :
    Makes low (Graph.IsProper D) F (plant (.fresh l)) fun g r => (fresh l).Stands g low r :=
  have hproper : ∀ g, F g → (Node.leaf l).IsProper D g := fun _ _ => h
  (add_makes hproper).mono (fun _ h => h) fun _ _ _ hr => ⟨l, rfl, hr⟩

theorem plantRange_makes {r : Range Element} (h : r.first.IsEndpoint ∧ r.last.IsEndpoint) :
    Makes low (Graph.IsProper D) F (plantRange r) fun g r' => Range.Alike (Element.Stands g low) r r' := by
  obtain ⟨_, _⟩ := r
  obtain ⟨⟨a, rfl⟩, ⟨b, rfl⟩⟩ := h
  refine (plant_makes (l := .character a) trivial).bind fun first => ?_
  refine (plant_makes (l := .character b) trivial).bind fun last => ?_
  exact .pure fun _ hF => ⟨hF.1.2, hF.2⟩

/-- The elements of a set stand once they are planted. -/
theorem plantSet_makes {s : CharacterSet Element} (h : IsProperSet D s) : Makes low (Graph.IsProper D) F (plantSet s)
      fun g s' => s.Alike (Element.Stands g low) s' := by
  have hmember : ∀ m ∈ s.members ++ s.subtractedMembers, ∀ {F : Graph → Prop},
      Makes low (Graph.IsProper D) F m.plant fun g r => m.Stands g low r := by
    intro m hm F
    obtain ⟨l, rfl, -, hproper⟩ := h.1 m hm
    exact plant_makes hproper
  have hrange : ∀ r ∈ s.ranges ++ s.subtractedRanges, ∀ {F : Graph → Prop},
      Makes low (Graph.IsProper D) F (plantRange r) fun g r' => Range.Alike (Element.Stands g low) r r' :=
    fun r hr _ => plantRange_makes (h.2 r hr)
  refine (Makes.mapM fun r hr => hrange r (mem_append_left _ hr)).bind fun ranges => ?_
  refine (Makes.mapM fun m hm => hmember m (mem_append_left _ hm)).bind fun members => ?_
  refine (Makes.mapM fun r hr => hrange r (mem_append_right _ hr)).bind fun ranges' => ?_
  refine (Makes.mapM fun m hm => hmember m (mem_append_right _ hm)).bind fun members' => ?_
  exact .pure fun _ hF => ⟨hF.1.1.1.2, hF.1.1.2, hF.1.2, hF.2, rfl⟩

/-- A set whose elements stand is a proper node. -/
theorem IsProperSet.node {s : CharacterSet Element} (h : IsProperSet D s) {g : Graph}
    {s' : CharacterSet Ref} (hs : s.Alike (Element.Stands g low) s') : (Node.set s').IsProper D g := by
  have hmembers := rel_append hs.members hs.subtractedMembers
  have hranges := rel_append hs.ranges hs.subtractedRanges
  refine ⟨fun m hm => ?_, fun r hr => ?_⟩
  · obtain ⟨e, he, l, rfl, hl⟩ := exists_mem_of_forall₂ hmembers.flip hm
    obtain ⟨_, heq, hmember, -⟩ := h.1 _ he
    cases heq
    exact ⟨l, hl.deref?, hmember⟩
  · obtain ⟨e, he, ⟨a, ha, hfirst⟩, b, hb, hlast⟩ := exists_mem_of_forall₂ hranges.flip hr
    obtain ⟨⟨a', ha'⟩, ⟨b', hb'⟩⟩ := h.2 e he
    cases ha.symm.trans ha'
    cases hb.symm.trans hb'
    exact ⟨⟨a', hfirst.deref?⟩, ⟨b', hlast.deref?⟩⟩

end Element

namespace Tree

mutual

/-- **A tree that is planted stands,** and its nodes are proper if the tree is. -/
theorem plant_makes {F : Graph → Prop} : ∀ {t : Tree}, t.IsProper D →
    Makes low (Graph.IsProper D) F t.plant fun g r => t.Stands g low Eq r
  | .existing r, _ => by
    rw [plant]
    exact .pure fun _ _ => by rw [Stands]
  | .leaf l, h => by
    rw [plant]
    refine (add_makes fun _ _ => ?_).mono (fun _ h => h) fun _ _ _ hr => ?_
    · rwa [IsProper] at h
    · rwa [Stands]
  | .set s, h => by
    rw [IsProper] at h
    rw [plant]
    refine (Element.plantSet_makes h).thenAdd (fun _ _ => h.node) fun _ s' _ _ hs hr => ?_
    rw [Stands]
    exact ⟨s', hr, hs⟩
  | .concat ts, h | .alternation ts, h => by
    rw [IsProper] at h
    rw [plant]
    refine (plantAll_makes h).thenAdd (fun _ _ _ => trivial) fun _ cs _ _ hcs hr => ?_
    rw [Stands]
    exact ⟨cs, hr, hcs⟩
  | .quantified b t, h | .group t, h | .enclosed how t, h | .modified on off t, h => by
    rw [IsProper] at h
    rw [plant]
    refine (plant_makes h).thenAdd (fun _ _ _ => trivial) fun _ c _ _ hc hr => ?_
    rw [Stands]
    exact ⟨c, hr, hc⟩
  | .conditional test e yes no, h => by
    rw [IsProper] at h
    obtain ⟨rfl, hyes, hno⟩ := h
    rw [plant, absent, plant, pure_bind]
    refine (plant_makes hyes).bind fun yes' => ?_
    refine (plant_makes hno).thenAdd (fun _ _ _ => rfl) fun _ no' _ hF hno' hr => ?_
    rw [Stands]
    refine ⟨none, yes', no', hr, ?_, hF.2, hno'⟩
    rw [Stands]

theorem plantAll_makes {F : Graph → Prop} : ∀ {ts : List Tree}, AllProper D ts →
    Makes low (Graph.IsProper D) F (plantAll ts) fun g cs => AllStand g low Eq ts cs
  | [], _ => by
    rw [plantAll]
    exact .pure fun _ _ => by rw [AllStand]
  | t :: ts, h => by
    rw [AllProper] at h
    rw [plantAll]
    refine (plant_makes h.1).bind fun c => ?_
    refine (plantAll_makes h.2).bind fun cs => ?_
    refine .pure fun _ hF => ?_
    rw [AllStand]
    exact ⟨c, cs, rfl, hF.1.2, hF.2⟩

end

/-- What planting a proper tree does to a proper graph. -/
theorem plant_stands {t : Tree} (ht : t.IsProper D) {g : Graph} (hlow : low ≤ g.size) (hg : g.IsProper D) :
    (t.plant g).2.IsProper D ∧ g.Extends (t.plant g).2 ∧
      ∀ h, (t.plant g).2.Keeps low h → t.Stands h low Eq (t.plant g).1 :=
  plant_makes (F := fun _ => True) ht g hlow hg fun _ _ => trivial

end Tree

end

end RegexBuilder
