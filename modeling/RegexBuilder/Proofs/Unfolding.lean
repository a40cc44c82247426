/-
# Copies in memory

A copy in memory makes the nodes that a copy in the graph of the memory makes, and fails where that fails
(`Memory.graph_copy`): each step of the one is a step of the other, with `Memory.Follows` as the invariant. The
graph does not tell a nil list from an empty one. What a memory holds is its *unfolding*, the tree of a pattern with
every field of its nodes, and a copy unfolds to the same tree (`Memory.unfolded_copy`).
-/

import RegexBuilder.Proofs.Frame
import RegexBuilder.Proofs.Storage

namespace RegexBuilder

open List Option

namespace Memory

variable {m₀ m m' : Memory} {c : Cell}

/-- What a memory is like while nodes of `m₀` are copied in it. -/
structure Follows (m₀ m : Memory) : Prop extends m₀.Extends m where
  sound : m.IsSound
  new : ∀ (i : NodeId) c, m₀.cells.size ≤ i → m.cells[i]? = some c → ∀ k ∈ c.arrays, m₀.arrays.size ≤ k

theorem Follows.refl (hm : m.IsSound) : m.Follows m where
  toExtends := .refl m
  sound := hm
  new _ _ hi hc := absurd (Array.getElem?_eq_some_iff.1 hc).1 (Nat.not_lt.2 hi)

/-- A copied node is added with its lists in new arrays. -/
theorem Follows.adds (h : m₀.Follows m) (hadds : m.Adds m' c) : m₀.Follows m' where
  toExtends := h.toExtends.trans hadds.extends
  sound := hadds.isSound h.sound
  new i d hi hd k hk := by
    rcases hadds.cases hd with hd | ⟨-, rfl⟩
    · exact h.new i d hi hd k hk
    · exact Nat.le_trans h.size (hadds.new k hk).1

end Memory

/-! ### The same steps in the graph -/

/-- The computation does in memory what `y` does in the graph. -/
abbrev Writing.Mirrors (m₀ : Memory) : Writing Ref → Growing Ref → Prop :=
  Coupled (fun m g => m₀.Follows m ∧ g = m.graph) Eq Eq

namespace Memory

variable {m₀ m m' : Memory} {c : Cell} {deeper : List NodeId → Ref → Writing Ref} {o : List NodeId} {i : NodeId}

theorem copyLevel_absent {r : Ref} (h : ∀ j ∈ r, m₀.cells[j]? = none) : m₀.copyLevel deeper o r = pure none := by
  cases r with
  | none => rfl
  | some j => simp only [copyLevel, h j rfl]

/-- A node that is being copied is not copied again. -/
theorem copyLevel_open (hc : m₀.cells[i]? = some c) (hi : i ∈ o) (m : Memory) :
    m₀.copyLevel deeper o (some i) m = .error (.recursion .copy (o ++ [i])) := by
  simp only [copyLevel, hc, if_pos hi]
  rfl

/-- Any other node is added anew, with copies of what it refers to. -/
theorem copyLevel_new (hc : m₀.cells[i]? = some c) (hi : i ∉ o) :
    m₀.copyLevel deeper o (some i) =
      (c.node m₀).copy m₀.copyEndpoint (deeper (o ++ [i])) >>= Writing.add c.slices := by
  simp only [copyLevel, hc, if_neg hi]

/-- **A node is added** to the memory and to its graph alike. -/
theorem add_mirrors {R : Ref → Ref → Prop} {d : Cell} {n : Node} (h : (d.node m₀).Alike R n) (hm : m₀.Follows m) :
    AlikeOutcome Eq (fun p p' => p.1 = p'.1 ∧ m₀.Follows p.2 ∧ p'.2 = p.2.graph) (Writing.add d.slices n m)
      (Growing.add n m.graph) := by
  obtain ⟨c, hadds, -, hnode⟩ := add_spec h m
  have hgraph := hadds.graph_eq hm.sound
  rw [hnode _ (.refl _)] at hgraph
  exact .ok ⟨congrArg some m.size_graph.symm, hm.adds hadds, hgraph.symm⟩

theorem copyEndpoint_mirrors (r r' : Ref) (h : r = r') :
    Writing.Mirrors m₀ (m₀.copyEndpoint r) (RegexBuilder.copyEndpoint m₀.graph r') := by
  subst h
  unfold copyEndpoint RegexBuilder.copyEndpoint
  cases m₀.graph.character? r with
  | none => exact .throw (.broken _)
  | some c =>
    rintro m _ ⟨hm, rfl⟩
    exact add_mirrors (R := Eq) (d := .leaf (.character c)) (.leaf _) hm

/-- A reference of the graph leads nowhere, or to a node in memory. -/
theorem absent_or_cell (m : Memory) (r : Ref) : (m.graph.deref? r = none ∧ ∀ j ∈ r, m.cells[j]? = none) ∨
    ∃ i c, r = some i ∧ m.cells[i]? = some c ∧ m.graph.node? i = some (c.node m) := by
  rcases m.graph.absent_or_node r with hr | ⟨i, n, rfl, hn⟩
  · refine .inl ⟨hr, ?_⟩
    rintro j rfl
    exact map_eq_none_iff.1 ((m.node?_graph j).symm.trans hr)
  · obtain ⟨c, hc, rfl⟩ := map_eq_some_iff.1 ((m.node?_graph i).symm.trans hn)
    exact .inr ⟨i, c, rfl, hc, hn⟩

/-- Copies are made in memory and in its graph in step. -/
theorem copying_mirrors : ∀ (depth : Nat) (o : List NodeId) (r r' : Ref), r = r' →
    Writing.Mirrors m₀ (m₀.copying depth o r) (m₀.graph.copying depth o r')
  | 0, _, _, _, _ => .throw .exhausted
  | depth + 1, o, r, _, rfl => by
    rw [copying, Graph.copying]
    rcases m₀.absent_or_cell r with ⟨hr, hcells⟩ | ⟨i, c, rfl, hc, hn⟩
    · intro m g hm
      rw [copyLevel_absent hcells, Graph.copyLevel_absent hr]
      exact .ok ⟨rfl, hm⟩
    · by_cases hi : i ∈ o
      · intro m g _
        rw [copyLevel_open hc hi, Graph.copyLevel_open hn hi]
        exact .error (.recursion _ (forall₂_same.2 fun _ _ => rfl))
      · rw [copyLevel_new hc hi, Graph.copyLevel_new hn hi]
        intro m g hm
        have hcopy := Node.copy_coupled (Q := Eq) (fun h => h ▸ Iff.rfl) copyEndpoint_mirrors
          (copying_mirrors depth (o ++ [i])) (n := c.node m₀) (.refl fun _ _ => rfl) m g hm
        -- the copy has as many elements in every list as the original
        have hgrowth : IsGrowth (fun _ _ => True) m₀.copyEndpoint (m₀.copying depth (o ++ [i])) :=
          ⟨fun _ => trivial, fun _ _ => trivial, fun _ => trivial, fun _ => trivial⟩
        refine (hcopy.imp fun _ _ hx h => And.intro hx h).bind ?_
        rintro ⟨n, m⟩ ⟨n', g⟩ ⟨hx, hn, hm, rfl⟩
        obtain rfl := hn.eq
        exact add_mirrors (Node.alike_of_copy_eq_ok hgrowth hx).2 hm

/-- **A copy in memory is a copy in the graph,** or fails as that does. -/
theorem graph_copy (hm : m.IsSound) (r : Ref) :
    m.graph.copy r = (m.copy r).map (fun p => (p.1, p.2.graph)) ∧
      ∀ r' m', m.copy r = .ok (r', m') → m.Follows m' := by
  have hcopy : AlikeOutcome Eq (fun p p' => p.1 = p'.1 ∧ m.Follows p.2 ∧ p'.2 = p.2.graph) (m.copy r)
      (m.graph.copy r) := by
    rw [Graph.copy, m.size_graph]
    exact copying_mirrors (m.cells.size + 1) [] r r rfl m m.graph ⟨.refl hm, rfl⟩
  generalize m.copy r = x, m.graph.copy r = y at hcopy
  cases hcopy with
  | error hf =>
    obtain rfl := hf.eq fun _ _ => id
    exact ⟨rfl, fun _ _ h => by cases h⟩
  | ok h =>
    obtain ⟨hr, hfollows, hgraph⟩ := h
    refine ⟨congrArg Except.ok (Prod.ext hr.symm hgraph), ?_⟩
    rintro _ _ ⟨⟩
    exact hfollows

end Memory

/-! ### Unfolding -/

/-- The node without its references, of which only the number is kept. -/
def Node.face : Node → Node
  | leaf l => leaf l
  | set s => set ⟨.replicate s.ranges.length ⟨none, none⟩, .replicate s.members.length none,
      .replicate s.subtractedRanges.length ⟨none, none⟩, .replicate s.subtractedMembers.length none,
      s.negated⟩
  | concat cs => concat (.replicate cs.length none)
  | alternation cs => alternation (.replicate cs.length none)
  | quantified b _ => quantified b none
  | group _ => group none
  | enclosed how _ => enclosed how none
  | conditional c _ _ _ => conditional c none none none
  | modified on off _ => modified on off none

/-- Nodes that are alike have the same face. -/
theorem Node.Alike.face_eq {R : Ref → Ref → Prop} {n n' : Node} (h : n.Alike R n') : n.face = n'.face := by
  cases h with
  | set h =>
    rw [face, face, h.ranges.length_eq, h.members.length_eq, h.subtractedRanges.length_eq,
      h.subtractedMembers.length_eq, h.negated]
  | concat h | alternation h => rw [face, face, h.length_eq]
  | leaf | quantified | group | enclosed | conditional | modified => rfl

/-- A pattern as a tree: nothing, or a node above the trees of its references. The node is given by its other fields,
and by which of its lists are nil. -/
inductive Unfolding where
  | absent
  | node (face : Node) (nils : List Bool) (below : List Unfolding)

namespace Memory

/-- The tree of a pattern, down to the given depth. -/
def unfolded (m : Memory) : (depth : Nat) → Ref → Unfolding
  | 0, _ => .absent
  | depth + 1, r =>
    match r.bind (m.cells[·]?) with
    | none => .absent
    | some c => .node (c.node m).face c.nils ((c.node m).refs.map (m.unfolded depth))

variable {m₀ m m' m'' : Memory} {c : Cell} {i : NodeId}

theorem unfolded_absent {r : Ref} (h : ∀ j ∈ r, m.cells[j]? = none) (depth : Nat) : m.unfolded depth r = .absent := by
  cases depth with
  | zero => rfl
  | succ =>
    have hr : r.bind (m.cells[·]?) = none := bind_eq_none_iff.2 h
    rw [unfolded, hr]

theorem unfolded_some (hc : m.cells[i]? = some c) (depth : Nat) : m.unfolded (depth + 1) (some i) =
    .node (c.node m).face c.nils ((c.node m).refs.map (m.unfolded depth)) := by
  have hr : (some i).bind (m.cells[·]?) = some c := hc
  rw [unfolded, hr]

/-- Nodes that are alike above the same trees are the same tree. -/
theorem unfolded_eq {i' : NodeId} {c' : Cell} (hc : m.cells[i]? = some c) (hc' : m'.cells[i']? = some c')
    (hnils : c'.nils = c.nils) {R : Ref → Ref → Prop} (halike : (c.node m).Alike R (c'.node m')) {depth : Nat}
    (hR : ∀ r r', R r r' → m.unfolded depth r = m'.unfolded depth r') :
    m.unfolded (depth + 1) (some i) = m'.unfolded (depth + 1) (some i') := by
  have hbelow := rel_map hR halike.forall₂_refs
  rw [forall₂_eq_eq_eq] at hbelow
  rw [unfolded_some hc, unfolded_some hc', halike.face_eq, hnils, hbelow]

/-! ### What a copy unfolds to -/

theorem copyEndpoint_eq_ok {r r' : Ref} (h : m₀.copyEndpoint r m = .ok (r', m')) :
    ∃ c, m₀.graph.character? r = some c ∧ Writing.add [] (.leaf (.character c)) m = .ok (r', m') := by
  unfold copyEndpoint at h
  cases hr : m₀.graph.character? r with
  | none =>
    rw [hr] at h
    cases h
  | some c =>
    rw [hr] at h
    exact ⟨c, rfl, h⟩

theorem isGrowth_extends (m₀ : Memory) {copy : Ref → Writing Ref}
    (hcopy : ∀ r m r' m', copy r m = .ok (r', m') → m.Extends m') : IsGrowth Extends m₀.copyEndpoint copy where
  refl := .refl
  trans := .trans
  endpoint h := by
    obtain ⟨c, -, h⟩ := copyEndpoint_eq_ok h
    cases h
    exact (add_adds _ _ _).extends
  copy h := hcopy _ _ _ _ h

/-- A level of a copy that succeeds adds a node, which is nil where the old one is and has copies of what that refers
to. -/
theorem alike_of_copyLevel_eq_ok {deeper : List NodeId → Ref → Writing Ref} {o : List NodeId}
    (hdeeper : ∀ o r m r' m', deeper o r m = .ok (r', m') → m.Extends m') (hc : m₀.cells[i]? = some c) {r' : Ref}
    (h : m₀.copyLevel deeper o (some i) m = .ok (r', m')) : m.Extends m' ∧ ∃ i' c' n', r' = some i' ∧
      m'.cells[i']? = some c' ∧ c'.nils = c.nils ∧ (∀ m'', m'.Extends m'' → c'.node m'' = n') ∧
      (c.node m₀).Alike (Made Extends m₀.copyEndpoint (deeper (o ++ [i])) m m') n' := by
  by_cases hi : i ∈ o
  · rw [copyLevel_open hc hi] at h
    cases h
  · rw [copyLevel_new hc hi] at h
    obtain ⟨n', m₁, hn', h⟩ := run_bind_eq_ok.1 h
    cases h
    have hgrowth := isGrowth_extends m₀ (hdeeper (o ++ [i]))
    obtain ⟨hm, halike⟩ := Node.alike_of_copy_eq_ok hgrowth hn'
    obtain ⟨c', hadds, hnils, hnode⟩ := add_spec halike m₁
    refine ⟨hm.trans hadds.extends, _, c', n', rfl, hadds.cell, hnils, hnode, ?_⟩
    exact halike.mono fun _ _ h => h.mono hgrowth (.refl m) hadds.extends

theorem extends_of_copying : ∀ (depth : Nat) (o : List NodeId) (r : Ref) (m : Memory) (r' : Ref) (m' : Memory),
    m₀.copying depth o r m = .ok (r', m') → m.Extends m'
  | 0, _, _, _, _, _, h => nomatch h
  | depth + 1, o, r, m, r', m', h => by
    rw [copying] at h
    rcases m₀.absent_or_cell r with ⟨-, hcells⟩ | ⟨i, c, rfl, hc, -⟩
    · rw [copyLevel_absent hcells] at h
      cases h
      exact .refl m
    · exact (alike_of_copyLevel_eq_ok (extends_of_copying depth) hc h).1

/-- A copied endpoint is the same character. -/
theorem unfolded_copyEndpoint {r r' : Ref} (h : m₀.copyEndpoint r m = .ok (r', m')) (hm : m'.Extends m'') (k : Nat) :
    m₀.unfolded k r = m''.unfolded k r' := by
  cases k with
  | zero => rfl
  | succ =>
    obtain ⟨x, hx, h⟩ := copyEndpoint_eq_ok h
    cases h
    obtain ⟨i, rfl, hn⟩ := bind_eq_some_iff.1 (Graph.deref?_of_character? hx)
    obtain ⟨c, hc, hleaf⟩ := map_eq_some_iff.1 ((m₀.node?_graph i).symm.trans hn)
    obtain rfl : c = .leaf (.character x) := by
      cases c <;> cases hleaf
      rfl
    have halike : (Node.leaf (.character x)).Alike (fun _ _ => False) (.leaf (.character x)) := .leaf _
    obtain ⟨c', hadds, hnils, hnode⟩ := @add_spec m₀ (.leaf (.character x)) _ _ halike m
    refine unfolded_eq hc (hm.cells _ c' hadds.cell) hnils ?_ (R := fun _ _ => False) nofun
    rw [hnode m'' hm]
    exact halike

/-- **A copy unfolds to the same tree,** in every later memory. -/
theorem unfolded_copying : ∀ (depth : Nat) {o : List NodeId} {r r' : Ref} {m m' m'' : Memory},
    m₀.copying depth o r m = .ok (r', m') → m'.Extends m'' → ∀ k, m₀.unfolded k r = m''.unfolded k r'
  | 0, _, _, _, _, _, _, h, _, _ => nomatch h
  | _ + 1, _, _, _, _, _, _, _, _, 0 => rfl
  | depth + 1, o, r, r', m, m', m'', h, hm, k + 1 => by
    rw [copying] at h
    rcases m₀.absent_or_cell r with ⟨-, hcells⟩ | ⟨i, c, rfl, hc, -⟩
    · rw [copyLevel_absent hcells] at h
      cases h
      rw [unfolded_absent hcells, unfolded_absent (r := none) nofun]
    · obtain ⟨-, i', c', n', rfl, hc', hnils, hnode, halike⟩ :=
        alike_of_copyLevel_eq_ok (extends_of_copying depth) hc h
      refine unfolded_eq hc (hm.cells i' c' hc') hnils (hnode m'' hm ▸ halike) ?_
      rintro r r' ⟨m₁, m₂, -, hmade | hmade, h₂⟩
      · exact unfolded_copying depth hmade (h₂.trans hm) k
      · exact unfolded_copyEndpoint hmade (h₂.trans hm) k

theorem unfolded_copy {r r' : Ref} (h : m.copy r = .ok (r', m')) (depth : Nat) :
    m'.unfolded depth r' = m.unfolded depth r :=
  (unfolded_copying _ h (.refl m') depth).symm

end Memory
end RegexBuilder
