/-
# Copies are detached

A copy is laid out behind the nodes that are there, one new node for every occurrence of a node in the pattern. The
invariant is `Graph.Laid`: the nodes from `base` on are those of the trees that have been copied so far, and none is
used twice. So the old nodes are a region and the new ones are a region, and changes in the one do not disturb the
other (`Memory.copy_detached`).
-/

import RegexBuilder.Proofs.Separation

namespace RegexBuilder

open Growing List Relation

/-! ### The nodes of trees -/

namespace Graph

/-- The patterns are trees, with the nodes `ids` in the order in which they occur. -/
inductive Covers (g : Graph) : List Ref → List NodeId → Prop where
  | nil : Covers g [] []
  | absent {rs : List Ref} {ids : List NodeId} (h : Covers g rs ids) : Covers g (none :: rs) ids
  | node {i : NodeId} {n : Node} {rs : List Ref} {ids ids' : List NodeId} (hn : g.node? i = some n)
    (hbelow : Covers g n.refs ids) (h : Covers g rs ids') : Covers g (some i :: rs) (i :: ids ++ ids')

namespace Covers

variable {g g' : Graph} {rs rs' : List Ref} {ids ids' : List NodeId}

theorem mono (hg : g.Extends g') (h : g.Covers rs ids) : g'.Covers rs ids := by
  induction h with
  | nil => exact .nil
  | absent _ ih => exact .absent ih
  | node hn _ _ ihbelow ih => exact .node (hg _ _ hn) ihbelow ih

theorem append (h : g.Covers rs ids) (h' : g.Covers rs' ids') : g.Covers (rs ++ rs') (ids ++ ids') := by
  induction h with
  | nil => exact h'
  | absent _ ih => exact .absent ih
  | node hn hbelow _ _ ih =>
    rw [append_assoc]
    exact .node hn hbelow ih

/-- The nodes of some trees and of others are apart. -/
theorem of_append (h : g.Covers (rs ++ rs') ids) : ∃ l l', ids = l ++ l' ∧ g.Covers rs l ∧ g.Covers rs' l' := by
  induction rs generalizing ids with
  | nil => exact ⟨[], ids, rfl, .nil, h⟩
  | cons r rs ih =>
    cases h with
    | absent h =>
      obtain ⟨l, l', rfl, hl, hl'⟩ := ih h
      exact ⟨l, l', rfl, .absent hl, hl'⟩
    | @node i n _ ids _ hn hbelow h =>
      obtain ⟨l, l', rfl, hl, hl'⟩ := ih h
      exact ⟨i :: ids ++ l, l', (append_assoc _ _ _).symm, .node hn hbelow hl, hl'⟩

/-- In another order the trees have the same nodes. -/
theorem perm (hrs : rs.Perm rs') (h : g.Covers rs ids) : ∃ ids', g.Covers rs' ids' ∧ ids.Perm ids' := by
  induction hrs generalizing ids with
  | nil => exact ⟨ids, h, .refl _⟩
  | @cons r rs rs' _ ih =>
    have h : g.Covers ([r] ++ rs) ids := h
    obtain ⟨l, l', rfl, hl, hl'⟩ := of_append h
    obtain ⟨ids', hids', hperm⟩ := ih hl'
    exact ⟨l ++ ids', hl.append hids', hperm.append_left l⟩
  | swap r r' rs =>
    have h : g.Covers (([r'] ++ [r]) ++ rs) ids := h
    obtain ⟨l, l', rfl, hl, hl'⟩ := of_append h
    obtain ⟨a, b, rfl, ha, hb⟩ := of_append hl
    exact ⟨(b ++ a) ++ l', (hb.append ha).append hl', perm_append_comm.append_right l'⟩
  | trans _ _ ih ih' =>
    obtain ⟨l, hl, hperm⟩ := ih h
    obtain ⟨l', hl', hperm'⟩ := ih' hl
    exact ⟨l', hl', hperm.trans hperm'⟩

theorem mem_of_mem (h : g.Covers rs ids) {i : NodeId} (hi : some i ∈ rs) : i ∈ ids := by
  induction h with
  | nil => cases hi
  | absent _ ih => exact ih (by simpa using hi)
  | node hn _ _ _ ih =>
    rcases mem_cons.1 hi with hi | hi
    · exact mem_append_left _ (mem_cons.2 (.inl (Option.some.inj hi)))
    · exact mem_append_right _ (ih hi)

/-- **The nodes of trees refer to each other only.** -/
theorem isRegion (h : g.Covers rs ids) : g.IsRegion (· ∈ ids) := by
  induction h with
  | nil => exact nofun
  | absent _ ih => exact ih
  | @node i n rs ids ids' hn hbelow _ ihbelow ih =>
    intro j hj
    rcases mem_append.1 hj with hj | hj
    · rcases mem_cons.1 hj with rfl | hj
      · exact ⟨n, hn, fun k hk =>
          mem_append_left _ (mem_cons_of_mem _ (hbelow.mem_of_mem hk))⟩
      · obtain ⟨m, hm, hrefs⟩ := ihbelow j hj
        exact ⟨m, hm, fun k hk => mem_append_left _ (mem_cons_of_mem _ (hrefs k hk))⟩
    · obtain ⟨m, hm, hrefs⟩ := ih j hj
      exact ⟨m, hm, fun k hk => mem_append_right _ (hrefs k hk)⟩

/-- The occurrences in trees are their nodes. -/
theorem flatMap_occurrencesTo {depth : Nat} (h : g.Covers rs ids) (hdepth : ids.length ≤ depth) :
    rs.flatMap (g.occurrencesTo depth) = ids := by
  induction h generalizing depth with
  | nil => rfl
  | absent _ ih =>
    rw [flatMap_cons, ih hdepth]
    cases depth <;> rfl
  | @node i n rs ids ids' hn hbelow _ ihbelow ih =>
    simp only [length_append, length_cons] at hdepth
    obtain ⟨d, rfl⟩ : ∃ d, depth = d + 1 := ⟨depth - 1, by omega⟩
    rw [flatMap_cons, ih (by omega)]
    simp only [occurrencesTo, hn]
    rw [ihbelow (by omega)]

end Covers

/-! ### Laying out a copy -/

/-- The nodes from `base` on are those of the trees `rs`, each of them once. -/
def Laid (base : Nat) (rs : List Ref) (g : Graph) : Prop :=
  base ≤ g.size ∧ ∃ ids, g.Covers rs ids ∧ ids.Perm (List.range' base (g.size - base))

variable {g : Graph} {base : Nat} {rs rs' : List Ref}

/-- The order of the trees does not matter. -/
theorem Laid.perm (h : g.Laid base rs) (hrs : rs.Perm rs') : g.Laid base rs' := by
  obtain ⟨hbase, ids, hids, hrange⟩ := h
  obtain ⟨ids', hids', hperm⟩ := hids.perm hrs
  exact ⟨hbase, ids', hids', hperm.symm.trans hrange⟩

/-- A node takes the place of what it refers to. -/
theorem Laid.add {n : Node} (h : g.Laid base (rs ++ n.refs)) : (g.add n).2.Laid base (rs ++ [some (g.add n).1]) := by
  obtain ⟨hbase, ids, hids, hrange⟩ := h
  obtain ⟨l, l', rfl, hl, hl'⟩ := hids.of_append
  have hg := g.extends_add n
  have hsize : (g.add n).2.size = g.size + 1 := Array.size_push _
  refine ⟨by omega, l ++ ((g.add n).1 :: l' ++ []), ?_, ?_⟩
  · exact (hl.mono hg).append (.node (g.node?_add n) (hl'.mono hg) .nil)
  · rw [hsize, Nat.sub_add_comm hbase, List.range'_concat]
    have hplace : base + 1 * (g.size - base) = (g.add n).1 := by
      show _ = g.size
      omega
    rw [hplace, List.append_nil]
    exact perm_middle.trans ((hrange.cons _).trans (perm_append_singleton _ _).symm)

end Graph

/-- Wherever trees have been laid out, the computation adds the trees of its answer. -/
def Growing.Lays {α : Type} (base : Nat) (refs : α → List Ref) (m : Growing α) : Prop :=
  ∀ rs, Ensures (Graph.Laid base rs) m (fun a => Graph.Laid base (rs ++ refs a)) fun _ => True

namespace Growing.Lays

variable {α β : Type} {base : Nat} {refs : α → List Ref} {refs' : β → List Ref}

theorem pure {a : α} (h : refs a = []) : Growing.Lays base refs (pure a) := fun rs =>
  Ensures.pure fun s hs => by rwa [h, List.append_nil]

theorem throw (f : Failure) : Growing.Lays base refs (throw f : Growing α) := fun _ => .throw trivial

theorem mapM {f : β → Growing α} {l : List β} (h : ∀ x ∈ l, Growing.Lays base refs (f x)) :
    Growing.Lays base (fun ys => ys.flatMap refs) (l.mapM f) := by
  induction l with
  | nil => exact .pure rfl
  | cons x l ih =>
    obtain ⟨hx, hl⟩ := forall_mem_cons.1 h
    rw [mapM_cons]
    refine fun rs => (hx rs).bind fun y => (ih hl (rs ++ refs y)).bind fun ys => .pure fun s hs => ?_
    rwa [append_assoc] at hs

end Growing.Lays

section

variable {g : Graph} {base : Nat} {copy : Ref → Growing Ref}

/-- A new node is laid out in the place of what it refers to. -/
theorem Growing.add_lays (base : Nat) (n : Node) (rs : List Ref) :
    Ensures (Graph.Laid base (rs ++ n.refs)) (Growing.add n) (fun r => Graph.Laid base (rs ++ [r])) fun _ => True := by
  refine fun s hs => ⟨fun r s' h => ?_, fun _ _ => trivial⟩
  cases h
  exact hs.add

theorem copyEndpoint_lays (r : Ref) : Growing.Lays base (fun r => [r]) (copyEndpoint g r) := by
  unfold copyEndpoint
  cases g.character? r with
  | none => exact .throw _
  | some c =>
    intro rs
    have hadd := add_lays base (.leaf (.character c)) rs
    rwa [Node.refs, List.append_nil] at hadd

/-- A copied range has two new nodes. -/
theorem copyRange_lays (r : Range Ref) :
    Growing.Lays base (fun r => [r.first, r.last]) (copyRange (copyEndpoint g) r) := by
  refine fun rs => (copyEndpoint_lays r.first rs).bind fun a => ?_
  refine (copyEndpoint_lays r.last (rs ++ [a])).bind fun b => .pure fun s hs => ?_
  rwa [append_assoc] at hs

variable (hcopy : ∀ r, Growing.Lays base (fun r => [r]) (copy r))

include hcopy

theorem copyMember_lays (r : Ref) : Growing.Lays base (fun r => [r]) (copyMember copy r) := by
  refine fun rs => (hcopy r rs).bind fun a => ?_
  cases a with
  | none => exact .throw trivial
  | some => exact .pure fun s hs => hs

/-- **A copy of a node is laid out,** if the copies of its references are. -/
theorem Node.copy_lays (n : Node) : Growing.Lays base Node.refs (n.copy (copyEndpoint g) copy) := by
  have hmembers := fun ms : List Ref => Lays.mapM fun m (_ : m ∈ ms) => copyMember_lays hcopy m
  have hranges : ∀ rs : List (Range Ref), Growing.Lays base
      (fun ys => ys.flatMap fun r => [r.first, r.last]) (rs.mapM (copyRange (copyEndpoint g))) := fun rs =>
    Lays.mapM fun r _ => copyRange_lays r
  have hchildren := fun cs : List Ref => Lays.mapM fun c (_ : c ∈ cs) => hcopy c
  simp only [flatMap_singleton'] at hmembers hchildren
  intro rs
  cases n with
  | leaf => exact .pure fun s hs => by rwa [Node.refs, List.append_nil]
  | set t =>
    refine (hmembers t.members rs).bind fun ms => ?_
    refine (hmembers t.subtractedMembers _).bind fun ms' => ?_
    refine (hranges t.ranges _).bind fun rs₁ => ?_
    refine (hranges t.subtractedRanges _).bind fun rs₂ => .pure fun s hs => hs.perm ?_
    -- the members are copied first, but the ranges stand in front of them
    refine perm_iff_count.2 fun r => ?_
    simp only [Node.refs, CharacterSet.refs, count_append]
    omega
  | concat cs | alternation cs => exact (hchildren cs rs).bind fun cs' => .pure fun s hs => hs
  | quantified _ c | group c | enclosed _ c | modified _ _ c =>
    exact (hcopy c rs).bind fun c' => .pure fun s hs => hs
  | conditional t e yes no =>
    refine (hcopy e rs).bind fun e' => (hcopy yes _).bind fun yes' => ?_
    refine (hcopy no _).bind fun no' => .pure fun s hs => ?_
    rwa [append_assoc, append_assoc] at hs

end

namespace Graph

/-- **A copy is laid out behind what has been laid out before.** -/
theorem copying_lays {g : Graph} {base : Nat} : ∀ (d : Nat) (o : List NodeId) (r : Ref),
    Growing.Lays base (fun r => [r]) (g.copying d o r)
  | 0, _, _ => .throw _
  | d + 1, o, r => by
    rw [copying]
    rcases g.absent_or_node r with hr | ⟨i, n, rfl, hn⟩
    · intro rs s hs
      rw [copyLevel_absent hr]
      refine ⟨fun r' s' h => ?_, fun _ _ => trivial⟩
      cases h
      obtain ⟨hbase, ids, hids, hrange⟩ := hs
      exact ⟨hbase, ids, List.append_nil ids ▸ hids.append (.absent .nil), hrange⟩
    · by_cases hi : i ∈ o
      · intro rs s _
        rw [copyLevel_open hn hi]
        refine ⟨fun _ _ h => ?_, fun _ _ => trivial⟩
        cases h
      · rw [copyLevel_new hn hi]
        exact fun rs => (Node.copy_lays (copying_lays d (o ++ [i])) n rs).bind fun n' =>
          add_lays base n' rs

/-- **The occurrences in a copy are the new nodes,** each of them once, and they refer to each other only. -/
theorem occurrences_copy {g g' : Graph} {r r' : Ref} (h : g.copy r = .ok (r', g')) :
    (g'.occurrences r').Perm (List.range' g.size (g'.size - g.size)) ∧ g'.IsRegion (· ∈ g'.occurrences r') ∧
      ∀ i ∈ r', i ∈ g'.occurrences r' := by
  have hsize := (extends_of_copying_eq_ok _ _ _ _ _ _ h).size_le
  obtain ⟨-, ids, hcovers, hperm⟩ := (copying_lays _ _ r [] g ⟨Nat.le_refl _, [], .nil, by simp⟩).1 r' g' h
  have hids : g'.occurrences r' = ids := by
    have hlength := hperm.length_eq
    rw [length_range'] at hlength
    have hdepth : ids.length ≤ g'.size := by omega
    have hflat := hcovers.flatMap_occurrencesTo hdepth
    rwa [List.nil_append, flatMap_singleton] at hflat
  rw [hids]
  exact ⟨hperm, hcovers.isRegion, fun i hi => hcovers.mem_of_mem (mem_singleton.2 hi.symm)⟩

/-- Every reference of a node leads to a node. -/
def IsLinked (g : Graph) : Prop := ∀ i n, g.node? i = some n → ∀ j, some j ∈ n.refs → j < g.size

theorem IsLinked.isRegion {g : Graph} (hg : g.IsLinked) : g.IsRegion (· < g.size) := fun i hi =>
  ⟨g.nodes[i], Array.getElem?_eq_getElem hi, hg i _ (Array.getElem?_eq_getElem hi)⟩

end Graph

/-! ### Detached copies -/

namespace Memory

/-- `r'` in `m'` is a detached copy of `r` in `m`. -/
structure IsDetachedCopy (m : Memory) (r : Ref) (m' : Memory) (r' : Ref) : Prop where
  /-- The nodes and arrays that were there stay as they are. -/
  kept : m.Extends m'
  /-- The copy unfolds to the same tree, field by field. -/
  unfolded : ∀ depth, m'.unfolded depth r' = m.unfolded depth r
  /-- The occurrences in the copy are the new nodes, each of them once. -/
  occurrences : (m'.graph.occurrences r').Perm (List.range' m.cells.size (m'.cells.size - m.cells.size))
  /-- No other node is reached from the copy. -/
  reaches : ∀ j, m'.graph.Reaches r' j → j ∈ m'.graph.occurrences r'
  /-- The lists of the copy are in new arrays. -/
  arrays : ∀ (j : NodeId) c, j ∈ m'.graph.occurrences r' → m'.cells[j]? = some c → ∀ k ∈ c.arrays, m.arrays.size ≤ k
  /-- Whatever is changed in the copy, or in nodes that are added, the original has the answers that it
  had before it was copied. -/
  original : ∀ h, ReflTransGen (Step (m.cells.size ≤ ·)) m' h → m.Undisturbed h r
  /-- Whatever is changed outside the copy, the copy has the same answers. -/
  copy : ∀ h, ReflTransGen (Step (· ∉ m'.graph.occurrences r')) m' h → m'.Undisturbed h r'

/-- **A copy is a faithful unfolding and shares nothing.** In a memory without dangling references, a
pattern without cycles whose sets lack no member and no endpoint has a copy, and that is detached. -/
theorem copy_detached {m : Memory} (hm : m.IsSound) (hlinked : m.graph.IsLinked) {r : Ref}
    (hr : ∀ i ∈ r, i < m.cells.size) (hacyclic : ¬ m.graph.HasCycleFrom r) (hwhole : m.graph.IsWholeFrom r) :
    ∃ r' m', m.copy r = .ok (r', m') ∧ m.IsDetachedCopy r m' r' := by
  obtain ⟨hgraph, hfollows⟩ := graph_copy hm r
  cases hcopy : m.copy r with
  | error =>
    rw [hcopy] at hgraph
    rcases Graph.copyFails_of_copy_eq_error hgraph with ⟨-, hcycle⟩ | ⟨-, hnot⟩
    · exact absurd hcycle hacyclic
    · exact absurd hwhole hnot
  | ok x =>
    obtain ⟨r', m'⟩ := x
    refine ⟨r', m', rfl, ?_⟩
    rw [hcopy] at hgraph
    have hfollows := hfollows r' m' hcopy
    obtain ⟨hperm, hnew, hroot⟩ := Graph.occurrences_copy hgraph
    rw [m.size_graph, m'.size_graph] at hperm
    -- the occurrences are the nodes that are not old
    have hoccurrences : ∀ {j c}, m'.cells[j]? = some c → (j ∈ m'.graph.occurrences r' ↔ m.cells.size ≤ j) := by
      intro j c hc
      have hj := (Array.getElem?_eq_some_iff.1 hc).1
      rw [hperm.mem_iff, mem_range'_1]
      omega
    refine ⟨hfollows.toExtends, unfolded_copy hcopy, hperm, ?_, ?_, fun h hh => ?_, fun h hh => ?_⟩
    · rintro j ⟨i, hi, hij⟩
      exact hnew.mem_of_reflTransGen (hroot i hi) hij
    · exact fun j c hj hc => hfollows.new j c ((hoccurrences hc).1 hj) hc
    · have hguards := (hfollows.guards hm fun j l _ _ hj hl _ _ => .inl ⟨Nat.not_le.1 hj, hl⟩).steps hh
      refine undisturbed_of_region hlinked.isRegion (fun j c hj hc => ?_) hm hguards.sound (by rwa [m.size_graph])
      rw [m.size_graph] at hj
      have hc' := hfollows.cells j c hc
      refine ⟨hguards.cells j c (Nat.not_le.2 hj) hc', ?_⟩
      rw [Cell.node_congr (hguards.arrays j c (Nat.not_le.2 hj) hc'), hfollows.toExtends.node_eq hm hc]
    · have hguards := (hfollows.guards hm fun j l c d hj hl hc hd =>
        .inr ⟨Nat.not_le.1 fun hold => hl ((hoccurrences hd).2 hold), (hoccurrences hc).1 (not_not.1 hj)⟩).steps hh
      refine undisturbed_of_region hnew (fun j c hj hc => ?_) hfollows.sound hguards.sound hroot
      exact ⟨hguards.cells j c (not_not.2 hj) hc, Cell.node_congr (hguards.arrays j c (not_not.2 hj) hc)⟩

/-- A set whose range begins with its member, in a group that stands twice beside nothing. The set has an empty list in
the array of its members, and the list of the sequence has room behind it. -/
def sharedLetters : Memory where
  cells := #[.leaf (.character (.plain 97)), .leaf (.character (.plain 122)),
    .set (some ⟨0, 0, 1, 1⟩) (some ⟨1, 0, 1, 1⟩) none (some ⟨1, 0, 0, 1⟩) false, .group (some 2),
    .concat (some ⟨2, 0, 3, 3⟩), .alternation (some ⟨2, 0, 1, 3⟩)]
  arrays := #[[.range ⟨some 0, some 1⟩], [.pattern (some 0)], [.pattern (some 3), .pattern none, .pattern (some 3)]]

end Memory

instance (g : Graph) (n : Node) : Decidable (n.IsWhole g) :=
  match n with
  | .set s => inferInstanceAs (Decidable ((∀ m ∈ s.members ++ s.subtractedMembers, g.deref? m ≠ none) ∧
      ∀ r ∈ s.ranges ++ s.subtractedRanges, g.character? r.first ≠ none ∧ g.character? r.last ≠ none))
  | .leaf _ | .concat _ | .alternation _ | .quantified _ _ | .group _ | .enclosed _ _
  | .conditional _ _ _ _ | .modified _ _ _ => .isTrue trivial

/-- The copy of a pattern with shared nodes and arrays has eleven nodes of its own. -/
theorem Memory.copy_detached_sharedLetters : ∃ r' m', sharedLetters.copy (some 4) = .ok (r', m') ∧
    m'.cells.size = 17 ∧ sharedLetters.IsDetachedCopy (some 4) m' r' := by
  have hsound : ∀ i < 6, ∀ c ∈ sharedLetters.cells[i]?, ∀ k ∈ c.arrays, k < 3 := by decide
  have hrefs : ∀ i < sharedLetters.graph.size, ∀ n ∈ sharedLetters.graph.node? i, ∀ r ∈ n.refs, ∀ j ∈ r, j < i := by
    decide +kernel
  have hsets : ∀ i < sharedLetters.graph.size, ∀ n ∈ sharedLetters.graph.node? i, n.IsWhole sharedLetters.graph := by
    decide +kernel
  have hlinked : sharedLetters.graph.IsLinked := fun i n hn j hj =>
    Nat.lt_trans (hrefs i (Graph.lt_size_of_node? hn) n hn _ hj j rfl) (Graph.lt_size_of_node? hn)
  obtain ⟨r', m', hcopy, hdetached⟩ := copy_detached (m := sharedLetters)
    (fun i c hc => hsound i (Array.getElem?_eq_some_iff.1 hc).1 c hc) hlinked (r := some 4) (by decide)
    (Graph.not_hasCycleFrom_of_lt hrefs _) fun i n _ hn => hsets i (Graph.lt_size_of_node? hn) n hn
  refine ⟨r', m', hcopy, ?_, hdetached⟩
  have hsize : (sharedLetters.copy (some 4)).toOption.map (fun x => x.2.cells.size) = some 17 := by
    decide +kernel
  rw [hcopy] at hsize
  exact Option.some.inj hsize
end RegexBuilder
