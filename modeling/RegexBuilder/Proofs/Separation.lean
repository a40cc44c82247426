/-
# Changes that stay apart

A change of a node writes to the arrays of its own lists and to new ones. So nodes that share no array with the nodes
that are changed keep their lists (`Memory.Guards.steps`), and if they refer to each other only, no query about them
tells the memories apart (`Memory.undisturbed_of_region`).
-/

import RegexBuilder.Proofs.Unfolding

namespace RegexBuilder.Memory

open List Option Relation

variable {m m' h h' : Memory} {S : NodeId → Prop} {growth : Nat → Nat} {i : NodeId} {s : Option Slice}

/-! ### Changes -/

/-- In the memory `m'` the node `c'` has the place of `c`, and its lists are in arrays of `c` or in new ones. -/
structure Replaces (m m' : Memory) (i : NodeId) (c c' : Cell) : Prop where
  cell : m.cells[i]? = some c
  cells : m'.cells = m.cells.setIfInBounds i c'
  size : m.arrays.size ≤ m'.arrays.size
  arrays : ∀ k < m.arrays.size, k ∉ c.arrays → m'.arrays[k]? = m.arrays[k]?
  new : ∀ k ∈ c'.arrays, k ∈ c.arrays ∨ m.arrays.size ≤ k ∧ k < m'.arrays.size

/-- A node of the changed memory is the new one, or was there before. -/
theorem Replaces.cases {c c' : Cell} (h : m.Replaces m' i c c') {j : NodeId} {d : Cell} (hd : m'.cells[j]? = some d) :
    j = i ∧ d = c' ∨ m.cells[j]? = some d := by
  rw [h.cells] at hd
  by_cases hj : i = j
  · subst hj
    rw [Array.getElem?_setIfInBounds_self_of_lt (Array.getElem?_eq_some_iff.1 h.cell).1] at hd
    exact .inl ⟨rfl, (Option.some.inj hd).symm⟩
  · rw [Array.getElem?_setIfInBounds_ne hj] at hd
    exact .inr hd

theorem Replaces.isSound {c c' : Cell} (h : m.Replaces m' i c c') (hm : m.IsSound) : m'.IsSound := by
  intro j d hd k hk
  rcases h.cases hd with ⟨-, rfl⟩ | hd
  · rcases h.new k hk with hk | hk
    · exact Nat.lt_of_lt_of_le (hm i c h.cell k hk) h.size
    · exact hk.2
  · exact Nat.lt_of_lt_of_le (hm j d hd k hk) h.size

/-- **A change replaces one node.** -/
theorem edit_spec {e : Edit} (hedit : m.edit growth i e = .ok m') : ∃ c c', m.Replaces m' i c c' := by
  unfold edit at hedit
  cases hc : m.cells[i]? with
  | none =>
    rw [hc] at hedit
    cases hedit
  | some c =>
    rw [hc] at hedit
    obtain ⟨n, -, hedit⟩ := bind_eq_ok.1 hedit
    obtain rfl := Except.ok.inj hedit
    have hput : ∀ k l, Stores c.arrays (store growth (e.storing k) (c.slices.getD k none) l) := by
      refine fun k l => store_stores (fun t ht => Cell.mem_arrays.2 ⟨t, ?_, rfl⟩) _ l
      cases hk : c.slices[k]? with
      | none => rw [getD_eq_getElem?_getD, hk] at ht; cases ht
      | some =>
        rw [getD_eq_getElem?_getD, hk] at ht
        exact ht ▸ mem_of_getElem? hk
    obtain ⟨htouches, hnew⟩ := Node.stored_touches hput n m
    exact ⟨c, _, hc, congrArg (Array.setIfInBounds · i _) htouches.cells, htouches.size, htouches.arrays, hnew⟩

/-- One change of a memory: a new array, a new node that shares no array with a node outside `S`, or setters that are
called on a node of `S`. -/
inductive Step (S : NodeId → Prop) (m : Memory) : Memory → Prop where
  | allocate (l : List Slot) : Step S m { m with arrays := m.arrays.push l }
  | add (c : Cell) (hc : ∀ k ∈ c.arrays, k < m.arrays.size ∧
      ∀ (j : NodeId) d, ¬ S j → m.cells[j]? = some d → k ∉ d.arrays) : Step S m { m with cells := m.cells.push c }
  | call {i : NodeId} (hi : S i) (growth : Nat → Nat) (es : List Edit) : Step S m (m.edits growth i es).1

/-- The memory `h` has what `m` has outside `S`, and its nodes in `S` share no array with that. -/
structure Guards (S : NodeId → Prop) (m h : Memory) : Prop where
  sound : h.IsSound
  cells : ∀ (j : NodeId) c, ¬ S j → m.cells[j]? = some c → h.cells[j]? = some c
  arrays : ∀ (j : NodeId) c, ¬ S j → m.cells[j]? = some c → ∀ k ∈ c.arrays, h.arrays[k]? = m.arrays[k]?
  apart : ∀ (j : NodeId) c, ¬ S j → m.cells[j]? = some c → ∀ (l : NodeId) d, S l → h.cells[l]? = some d →
    ∀ k ∈ c.arrays, k ∉ d.arrays

theorem Guards.edit (hg : Guards S m h) (hi : S i) {e : Edit} (hedit : h.edit growth i e = .ok h') :
    Guards S m h' := by
  obtain ⟨c, c', hreplaces⟩ := edit_spec hedit
  have hbound : ∀ j d, ¬ S j → m.cells[j]? = some d → ∀ k ∈ d.arrays, k < h.arrays.size := fun j d hj hd =>
    hg.sound j d (hg.cells j d hj hd)
  constructor
  case sound => exact hreplaces.isSound hg.sound
  case cells =>
    intro j d hj hd
    have hij : i ≠ j := by
      rintro rfl
      exact hj hi
    rw [hreplaces.cells, Array.getElem?_setIfInBounds_ne hij, hg.cells j d hj hd]
  case arrays =>
    intro j d hj hd k hk
    have hapart := hg.apart j d hj hd i c hi hreplaces.cell k hk
    rw [hreplaces.arrays k (hbound j d hj hd k hk) hapart, hg.arrays j d hj hd k hk]
  case apart =>
    intro j d hj hd l x hl hx k hk hkx
    rcases hreplaces.cases hx with ⟨-, rfl⟩ | hx
    · rcases hreplaces.new k hkx with hkx | hkx
      · exact hg.apart j d hj hd i c hi hreplaces.cell k hk hkx
      · exact Nat.not_lt.2 hkx.1 (hbound j d hj hd k hk)
    · exact hg.apart j d hj hd l x hl hx k hk hkx

theorem Guards.edits (hi : S i) : ∀ (es : List Edit) {h : Memory}, Guards S m h → Guards S m (h.edits growth i es).1
  | [], _, hg => hg
  | e :: es, h, hg => by
    rw [Memory.edits]
    cases hedit : h.edit growth i e with
    | error => exact hg
    | ok => exact edits hi es (hg.edit hi hedit)

theorem Guards.step (hg : Guards S m h) (hstep : Step S h h') : Guards S m h' := by
  cases hstep with
  | allocate =>
    refine ⟨fun j d hd k hk => ?_, hg.cells, fun j d hj hd k hk => ?_, hg.apart⟩
    · exact Nat.lt_of_lt_of_le (hg.sound j d hd k hk) (by simp)
    · have hbound := hg.sound j d (hg.cells j d hj hd) k hk
      simp only [Array.getElem?_push, if_neg (Nat.ne_of_lt hbound)]
      exact hg.arrays j d hj hd k hk
  | add c hc =>
    have hcases : ∀ {j : NodeId} {d}, (h.cells.push c)[j]? = some d → h.cells[j]? = some d ∨ d = c := by
      intro j d hd
      rw [Array.getElem?_push] at hd
      split at hd
      · exact .inr (Option.some.inj hd).symm
      · exact .inl hd
    refine ⟨fun j d hd k hk => ?_, fun j d hj hd => ?_, hg.arrays, fun j d hj hd l x hl hx k hk hkx => ?_⟩
    · rcases hcases hd with hd | rfl
      · exact hg.sound j d hd k hk
      · exact (hc k hk).1
    · have hold := hg.cells j d hj hd
      have hlt : j < h.cells.size := (Array.getElem?_eq_some_iff.1 hold).1
      simp only [Array.getElem?_push, if_neg (Nat.ne_of_lt hlt), hold]
    · rcases hcases hx with hx | rfl
      · exact hg.apart j d hj hd l x hl hx k hk hkx
      · exact (hc k hkx).2 j d hj (hg.cells j d hj hd) hk
  | call hi growth es => exact hg.edits hi es

/-- **Changes keep what is outside `S`.** -/
theorem Guards.steps (hg : Guards S m m) (hsteps : ReflTransGen (Step S) m h) : Guards S m h := by
  induction hsteps with
  | refl => exact hg
  | tail _ hstep ih => exact ih.step hstep

/-- Old nodes and new ones share no array. -/
theorem Follows.apart {m₀ : Memory} (hm : m₀.Follows m) (hm₀ : m₀.IsSound) {j l : NodeId} {c d : Cell}
    (hj : j < m₀.cells.size) (hl : m₀.cells.size ≤ l) (hc : m.cells[j]? = some c) (hd : m.cells[l]? = some d) {k : Nat}
    (hk : k ∈ c.arrays) : k ∉ d.arrays := by
  have hold : m₀.cells[j]? = some m₀.cells[j] := Array.getElem?_eq_getElem hj
  cases (hm.cells j _ hold).symm.trans hc
  exact fun hkd => Nat.not_lt.2 (hm.new l d hl hd k hkd) (hm₀ j _ hold k hk)

/-- After a copy the old nodes are guarded against changes of the new ones, and the new ones against changes of the old
ones. -/
theorem Follows.guards {m₀ : Memory} (hm : m₀.Follows m) (hm₀ : m₀.IsSound)
    (hS : ∀ (j l : NodeId) c d, ¬ S j → S l → m.cells[j]? = some c → m.cells[l]? = some d →
      j < m₀.cells.size ∧ m₀.cells.size ≤ l ∨ l < m₀.cells.size ∧ m₀.cells.size ≤ j) : Guards S m m := by
  refine ⟨hm.sound, fun _ _ _ h => h, fun _ _ _ _ _ _ => rfl, fun j c hj hc l d hl hd k hk hkd => ?_⟩
  rcases hS j l c d hj hl hc hd with ⟨hj, hl⟩ | ⟨hl, hj⟩
  · exact hm.apart hm₀ hj hl hc hd hk hkd
  · exact hm.apart hm₀ hl hj hd hc hkd hk

/-! ### Queries -/

/-- **No query about `r` tells the memories apart:** it has the same text, core, emptiness and singleness, is the same
tree, and has a copy that is the same tree. -/
structure Undisturbed (m h : Memory) (r : Ref) : Prop where
  questions : m.graph.Undisturbed h.graph r
  unfolded : ∀ depth, h.unfolded depth r = m.unfolded depth r
  copy : Graph.SameAnswer (fun x y => ∀ depth, y.2.unfolded depth y.1 = x.2.unfolded depth x.1) m.graph h.graph
    (m.copy r) (h.copy r)

section

variable {T : NodeId → Prop} (hregion : m.graph.IsRegion T)
  (hcells : ∀ (j : NodeId) c, T j → m.cells[j]? = some c → h.cells[j]? = some c ∧ c.node h = c.node m)

include hregion hcells

theorem unfolded_eq_of_region : ∀ (depth : Nat) {r : Ref}, (∀ j ∈ r, T j) → h.unfolded depth r = m.unfolded depth r
  | 0, _, _ => rfl
  | _ + 1, none, _ => rfl
  | depth + 1, some j, hr => by
    obtain ⟨n, hn, hrefs⟩ := hregion j (hr j rfl)
    obtain ⟨c, hc, rfl⟩ := map_eq_some_iff.1 ((m.node?_graph j).symm.trans hn)
    obtain ⟨hc', hnode⟩ := hcells j c (hr j rfl) hc
    have hbelow : (c.node m).refs.map (h.unfolded depth) = (c.node m).refs.map (m.unfolded depth) := by
      refine map_congr_left fun r hr => unfolded_eq_of_region depth ?_
      rintro k rfl
      exact hrefs k hr
    rw [unfolded_some hc, unfolded_some hc', hnode, hbelow]

/-- **What is outside a region does not matter to its patterns.** -/
theorem undisturbed_of_region (hm : m.IsSound) (hh : h.IsSound) {r : Ref} (hr : ∀ j ∈ r, T j) : m.Undisturbed h r := by
  have hnodes : ∀ j, T j → h.graph.node? j = m.graph.node? j := by
    intro j hj
    obtain ⟨n, hn, -⟩ := hregion j hj
    obtain ⟨c, hc, rfl⟩ := map_eq_some_iff.1 ((m.node?_graph j).symm.trans hn)
    obtain ⟨hc', hnode⟩ := hcells j c hj hc
    rw [hn, node?_graph, hc', map_some, hnode]
  have hquestions := hregion.undisturbed hnodes hr
  have hunfolded := fun depth => unfolded_eq_of_region hregion hcells depth hr
  refine ⟨hquestions, hunfolded, ?_⟩
  have hcopy := hquestions.copy
  rw [(graph_copy hm r).1, (graph_copy hh r).1] at hcopy
  cases hx : m.copy r with
  | error =>
    cases hy : h.copy r with
    | error =>
      rw [hx, hy] at hcopy
      cases hcopy with
      | error hf => exact .error hf
    | ok =>
      rw [hx, hy] at hcopy
      cases hcopy
  | ok =>
    cases hy : h.copy r with
    | error =>
      rw [hx, hy] at hcopy
      cases hcopy
    | ok => exact .ok fun depth => by rw [unfolded_copy hx, unfolded_copy hy, hunfolded]

end

end RegexBuilder.Memory
