/-
# What storing a node does to memory

Storing a node writes to the arrays of the lists that it extends, and makes new arrays; all other arrays keep their
elements (`Node.stored_touches`). What a node says depends on the arrays of its lists only (`Cell.node_congr`), so a
new node whose lists are copied changes nothing about the others (`Memory.add_spec`).
-/

import RegexBuilder.Pattern.Memory
import RegexBuilder.Proofs.Copying

namespace RegexBuilder

open List

/-! ### Arrays of a node -/

/-- The arrays that the lists of the node are parts of. -/
def Cell.arrays (c : Cell) : List Nat := c.slices.filterMap (Option.map Slice.array)

/-- Which lists of the node are nil. -/
def Cell.nils (c : Cell) : List Bool := c.slices.map Option.isNone

variable {m₀ m m' m'' : Memory} {c : Cell} {s : Option Slice} {A : List Nat} {growth : Nat → Nat}

theorem Cell.mem_arrays {k : Nat} : k ∈ c.arrays ↔ ∃ t, some t ∈ c.slices ∧ t.array = k := by
  simp [arrays]

/-- The elements of a list depend on its array only. -/
theorem Memory.read_congr (h : ∀ t, s = some t → m'.arrays[t.array]? = m.arrays[t.array]?) : m'.read s = m.read s := by
  cases s with
  | none => rfl
  | some t => rw [read, read, h t rfl]

/-- **A node depends on the arrays of its lists only.** -/
theorem Cell.node_congr (h : ∀ k ∈ c.arrays, m'.arrays[k]? = m.arrays[k]?) : c.node m' = c.node m := by
  have hread : ∀ s ∈ c.slices, m'.read s = m.read s := fun s hs =>
    Memory.read_congr fun t ht => h _ (mem_arrays.2 ⟨t, ht ▸ hs, rfl⟩)
  cases c with
  | set =>
    simp only [slices, forall_mem_cons] at hread
    obtain ⟨ha, hb, hc, hd, -⟩ := hread
    simp only [node, ha, hb, hc, hd]
  | concat s | alternation s => simp only [node, hread s mem_cons_self]
  | leaf | quantified | group | enclosed | conditional | modified => rfl

/-! ### Larger memories -/

namespace Memory

/-- The memory `m'` has all nodes and arrays of `m`. -/
structure Extends (m m' : Memory) : Prop where
  cells : ∀ (i : NodeId) c, m.cells[i]? = some c → m'.cells[i]? = some c
  size : m.arrays.size ≤ m'.arrays.size
  arrays : ∀ k < m.arrays.size, m'.arrays[k]? = m.arrays[k]?

theorem Extends.refl (m : Memory) : m.Extends m := ⟨fun _ _ h => h, Nat.le_refl _, fun _ _ => rfl⟩

theorem Extends.trans (h : m.Extends m') (h' : m'.Extends m'') : m.Extends m'' :=
  ⟨fun i c hc => h'.cells i c (h.cells i c hc), Nat.le_trans h.size h'.size,
    fun k hk => (h'.arrays k (Nat.lt_of_lt_of_le hk h.size)).trans (h.arrays k hk)⟩

/-- Every list is part of an array that is there. -/
def IsSound (m : Memory) : Prop := ∀ (i : NodeId) c, m.cells[i]? = some c → ∀ k ∈ c.arrays, k < m.arrays.size

/-- In a larger memory a node is the same. -/
theorem Extends.node_eq (hm : m.IsSound) (h : m.Extends m') {i : NodeId} (hc : m.cells[i]? = some c) :
    c.node m' = c.node m := Cell.node_congr fun k hk => h.arrays k (hm i c hc k hk)

theorem Extends.map_node_eq (hm : m.IsSound) (h : m.Extends m') :
    m.cells.map (Cell.node m') = m.cells.map (Cell.node m) := by
  refine Array.map_congr_left fun c hc => ?_
  obtain ⟨i, hi, rfl⟩ := Array.getElem_of_mem hc
  exact h.node_eq hm (Array.getElem?_eq_getElem hi)

/-- Only the arrays of `A` are written to, and arrays are added. -/
structure Touches (A : List Nat) (m m' : Memory) : Prop where
  cells : m'.cells = m.cells
  size : m.arrays.size ≤ m'.arrays.size
  arrays : ∀ k < m.arrays.size, k ∉ A → m'.arrays[k]? = m.arrays[k]?

theorem Touches.refl (A : List Nat) (m : Memory) : m.Touches A m := ⟨rfl, Nat.le_refl _, fun _ _ _ => rfl⟩

theorem Touches.trans (h : Touches A m m') (h' : Touches A m' m'') : Touches A m m'' :=
  ⟨h'.cells.trans h.cells, Nat.le_trans h.size h'.size,
    fun k hk hA => (h'.arrays k (Nat.lt_of_lt_of_le hk h.size) hA).trans (h.arrays k hk hA)⟩

theorem Touches.extends (h : Touches [] m m') : m.Extends m' :=
  ⟨fun _ _ hc => h.cells ▸ hc, h.size, fun k hk => h.arrays k hk not_mem_nil⟩

/-! ### Storing lists -/

/-- The list is part of an array of `A`, or of one that `m'` has and `m` has not. -/
def Keeps (A : List Nat) (m m' : Memory) (s : Option Slice) : Prop :=
  ∀ t, s = some t → t.array ∈ A ∨ m.arrays.size ≤ t.array ∧ t.array < m'.arrays.size

theorem Keeps.mono {m₁ : Memory} (h : Keeps A m m' s) (h₀ : Touches A m₀ m) (h₁ : Touches A m' m₁) :
    Keeps A m₀ m₁ s := fun t ht =>
  (h t ht).imp_right fun hk => ⟨Nat.le_trans h₀.size hk.1, Nat.lt_of_lt_of_le hk.2 h₁.size⟩

/-- The computation writes to arrays of `A` and to new ones, and its answer is in one of these. -/
def Stores (A : List Nat) (x : StateM Memory (Option Slice)) : Prop :=
  ∀ m, Touches A m (x m).2 ∧ Keeps A m (x m).2 (x m).1

/-- A new array is no old one. -/
theorem allocate_stores (growth : Nat → Nat) (A : List Nat) (l : List Slot) : Stores A (allocate growth l) := by
  refine fun m => ⟨⟨rfl, ?_, fun k hk _ => ?_⟩, ?_⟩
  · simp [allocate]
  · simp [allocate, Array.getElem?_push, Nat.ne_of_lt hk]
  · rintro t ⟨⟩
    exact .inr ⟨Nat.le_refl _, by simp [allocate]⟩

/-- What is appended goes to the array of the list, or to a new one. -/
theorem append_stores (hs : ∀ t, s = some t → t.array ∈ A) (more : List Slot) : Stores A (append growth s more) := by
  intro m
  unfold append
  split
  · exact ⟨.refl A m, fun t ht => .inl (hs t ht)⟩
  · split
    · exact allocate_stores growth A more m
    · next t =>
      split
      · refine ⟨⟨rfl, by simp, fun k hk hA => ?_⟩, ?_⟩
        · have hne : t.array ≠ k := fun heq => hA (heq ▸ hs t rfl)
          simp [Array.getElem?_modify, hne]
        · rintro _ ⟨⟩
          exact .inl (hs t rfl)
      · exact allocate_stores growth A _ m

/-- **Storing a list** writes to its own array and to new ones. -/
theorem store_stores (hs : ∀ t, s = some t → t.array ∈ A) (how : Storing) (l : List Slot) :
    Stores A (store growth how s l) := by
  intro m
  unfold store
  cases how with
  | extended => exact append_stores hs _ m
  | copied | replaced =>
    dsimp only
    split
    · exact ⟨.refl A m, nofun⟩
    · exact allocate_stores id A l m

/-- A list that is copied goes to a new array, whatever array it was in. -/
theorem store_copied_stores (s : Option Slice) (l : List Slot) : Stores [] (store id .copied s l) := by
  intro m
  cases s with
  | none => exact ⟨.refl [] m, nofun⟩
  | some => exact allocate_stores id [] l m

/-- **A copied list** is nil where the original is, and its elements can be read in every later memory. It has as many
elements as the original, so it may be nil. -/
theorem store_copied_spec {α : Type} {f : α → Slot} {f' : Slot → α} {R : α → α → Prop} {l : List α}
    (hl : Forall₂ R ((m₀.read s).map f') l) (hf : ∀ a, f' (f a) = a) (m : Memory) :
    let x := store id .copied s (l.map f) m
    Touches [] m x.2 ∧ x.1.isNone = s.isNone ∧ ∀ m', x.2.Extends m' → (m'.read x.1).map f' = l := by
  cases s with
  | none =>
    obtain rfl := forall₂_nil_left_iff.1 hl
    exact ⟨.refl [] m, rfl, fun _ _ => rfl⟩
  | some =>
    refine ⟨(allocate_stores id [] _ m).1, rfl, fun m' hm' => ?_⟩
    have harray := hm'.arrays m.arrays.size (by simp [store, allocate])
    have hid : f' ∘ f = id := funext hf
    simp only [store, allocate] at harray ⊢
    simp [read, harray, hid]

end Memory

/-! ### Storing nodes -/

/-- **Storing a node** writes to what storing its lists writes to. -/
theorem Node.stored_touches {put : Nat → List Slot → StateM Memory (Option Slice)}
    (hput : ∀ k l, Memory.Stores A (put k l)) (n : Node) (m : Memory) :
    Memory.Touches A m (n.stored put m).2 ∧
      ∀ k ∈ (n.stored put m).1.arrays, k ∈ A ∨ m.arrays.size ≤ k ∧ k < (n.stored put m).2.arrays.size := by
  suffices h : Memory.Touches A m (n.stored put m).2 ∧
      ∀ s ∈ (n.stored put m).1.slices, Memory.Keeps A m (n.stored put m).2 s by
    refine ⟨h.1, fun k hk => ?_⟩
    obtain ⟨t, ht, rfl⟩ := Cell.mem_arrays.1 hk
    exact h.2 _ ht t rfl
  cases n with
  | set t =>
    obtain ⟨h₁, k₁⟩ := hput 1 (t.members.map .pattern) m
    obtain ⟨h₂, k₂⟩ := hput 3 (t.subtractedMembers.map .pattern) _
    obtain ⟨h₃, k₃⟩ := hput 0 (t.ranges.map .range) _
    obtain ⟨h₄, k₄⟩ := hput 2 (t.subtractedRanges.map .range) _
    -- a list stays in its array while the lists behind it are stored
    refine ⟨h₁.trans (h₂.trans (h₃.trans h₄)), ?_⟩
    exact forall_mem_cons.2 ⟨k₃.mono (h₁.trans h₂) h₄, forall_mem_cons.2
      ⟨k₁.mono (.refl A m) (h₂.trans (h₃.trans h₄)), forall_mem_cons.2
        ⟨k₄.mono (h₁.trans (h₂.trans h₃)) (.refl A _), forall_mem_singleton.2 (k₂.mono h₁ (h₃.trans h₄))⟩⟩⟩
  | concat cs | alternation cs =>
    obtain ⟨h₁, k₁⟩ := hput 0 (cs.map .pattern) m
    exact ⟨h₁, forall_mem_singleton.2 k₁⟩
  | leaf | quantified | group | enclosed | conditional | modified => exact ⟨.refl A m, nofun⟩

/-- **A node that is stored with copied lists** is nil where the original is, and refers to what it was stored with. -/
theorem Node.stored_copied {R : Ref → Ref → Prop} {n : Node} (h : (c.node m₀).Alike R n) (m : Memory) :
    let x := n.stored (fun k => Memory.store id .copied (c.slices.getD k none)) m
    x.1.nils = c.nils ∧ ∀ m', x.2.Extends m' → x.1.node m' = n := by
  cases c with
  | set =>
    cases h with
    | set h =>
      obtain ⟨e₁, n₁, r₁⟩ := Memory.store_copied_spec (f := .pattern) h.members (fun _ => rfl) m
      obtain ⟨e₃, n₃, r₃⟩ := Memory.store_copied_spec (f := .pattern) h.subtractedMembers (fun _ => rfl) _
      obtain ⟨e₀, n₀, r₀⟩ := Memory.store_copied_spec (f := .range) h.ranges (fun _ => rfl) _
      obtain ⟨e₂, n₂, r₂⟩ := Memory.store_copied_spec (f := .range) h.subtractedRanges (fun _ => rfl) _
      refine ⟨congrArg₂ cons n₀ (congrArg₂ cons n₁ (congrArg₂ cons n₂ (congrArg (· :: []) n₃))), fun m' hm' => ?_⟩
      refine congrArg Node.set ((CharacterSet.mk.injEq ..).mpr ⟨r₀ m' (e₂.extends.trans hm'), ?_, r₂ m' hm', ?_, rfl⟩)
      · exact r₁ m' (((e₃.trans e₀).trans e₂).extends.trans hm')
      · exact r₃ m' ((e₀.trans e₂).extends.trans hm')
  | concat =>
    cases h with
    | concat h =>
      obtain ⟨-, hnil, hread⟩ := Memory.store_copied_spec (f := .pattern) h (fun _ => rfl) m
      exact ⟨congrArg (· :: []) hnil, fun m' hm' => congrArg Node.concat (hread m' hm')⟩
  | alternation =>
    cases h with
    | alternation h =>
      obtain ⟨-, hnil, hread⟩ := Memory.store_copied_spec (f := .pattern) h (fun _ => rfl) m
      exact ⟨congrArg (· :: []) hnil, fun m' hm' => congrArg Node.alternation (hread m' hm')⟩
  | leaf | quantified | group | enclosed | conditional | modified =>
    cases h
    exact ⟨rfl, fun _ _ => rfl⟩

/-! ### New nodes -/

namespace Memory

theorem node?_graph (m : Memory) (i : NodeId) : m.graph.node? i = (m.cells[i]?).map (Cell.node m) := by
  simp [graph, Graph.node?]

theorem size_graph (m : Memory) : m.graph.size = m.cells.size := Array.size_map

/-- The memory `m'` has the nodes of `m` and the new node `c`, whose lists are in new arrays. -/
structure Adds (m m' : Memory) (c : Cell) : Prop where
  cells : m'.cells = m.cells.push c
  size : m.arrays.size ≤ m'.arrays.size
  arrays : ∀ k < m.arrays.size, m'.arrays[k]? = m.arrays[k]?
  new : ∀ k ∈ c.arrays, m.arrays.size ≤ k ∧ k < m'.arrays.size

/-- A node of the larger memory was there before or is the new one. -/
theorem Adds.cases (h : m.Adds m' c) {i : NodeId} {d : Cell} (hi : m'.cells[i]? = some d) :
    m.cells[i]? = some d ∨ i = m.cells.size ∧ d = c := by
  rw [h.cells, Array.getElem?_push] at hi
  split at hi
  · next heq => exact .inr ⟨heq, (Option.some.inj hi).symm⟩
  · exact .inl hi

theorem Adds.cell (h : m.Adds m' c) : m'.cells[m.cells.size]? = some c := by
  rw [h.cells, Array.getElem?_push, if_pos rfl]

/-- Nothing that was there is changed. -/
theorem Adds.extends (h : m.Adds m' c) : m.Extends m' := by
  refine ⟨fun i d hd => ?_, h.size, h.arrays⟩
  have hi : i < m.cells.size := (Array.getElem?_eq_some_iff.1 hd).1
  rw [h.cells, Array.getElem?_push, if_neg (Nat.ne_of_lt hi), hd]

theorem Adds.isSound (h : m.Adds m' c) (hm : m.IsSound) : m'.IsSound := by
  intro i d hd k hk
  rcases h.cases hd with hd | ⟨-, rfl⟩
  · exact Nat.lt_of_lt_of_le (hm i d hd k hk) h.size
  · exact (h.new k hk).2

/-- The graph gets the same node. -/
theorem Adds.graph_eq (h : m.Adds m' c) (hm : m.IsSound) : m'.graph = (m.graph.add (c.node m')).2 := by
  rw [graph, h.cells, Array.map_push, h.extends.map_node_eq hm]
  rfl

/-- **A new node** has its lists in new arrays. -/
theorem add_adds (m : Memory) (like : List (Option Slice)) (n : Node) :
    m.Adds (m.add like n) (n.stored (fun k => store id .copied (like.getD k none)) m).1 := by
  obtain ⟨htouches, harrays⟩ := Node.stored_touches (fun k l => store_copied_stores (like.getD k none) l) n m
  refine ⟨congrArg (Array.push · _) htouches.cells, htouches.size, fun k hk => htouches.arrays k hk not_mem_nil, ?_⟩
  exact fun k hk => (harrays k hk).resolve_left not_mem_nil

/-- **A copied node** is nil where the original is, and refers to what it was added with. -/
theorem add_spec {R : Ref → Ref → Prop} {n : Node} (h : (c.node m₀).Alike R n) (m : Memory) :
    ∃ c', m.Adds (m.add c.slices n) c' ∧ c'.nils = c.nils ∧
      ∀ m', (m.add c.slices n).Extends m' → c'.node m' = n := by
  obtain ⟨hnils, hnode⟩ := Node.stored_copied h m
  obtain ⟨htouches, -⟩ := Node.stored_touches (fun k l => store_copied_stores (c.slices.getD k none) l) n m
  refine ⟨_, m.add_adds c.slices n, hnils, fun m' hm' => hnode m' ⟨fun i d hd => ?_, hm'.size, hm'.arrays⟩⟩
  rw [htouches.cells] at hd
  exact hm'.cells i d ((m.add_adds c.slices n).extends.cells i d hd)

end Memory
end RegexBuilder
