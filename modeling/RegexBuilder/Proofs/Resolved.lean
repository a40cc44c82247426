/-
# The graph of a description

Node `i` of what `resolve` makes is the group of definition number `i`, and at the child of that group stands the tree
of the definition's expression (`exists_stands_of_resolve`).

Names refer to names (`Refers`). Where no cycle is reached from a name, the chains of references from it end after as
many steps as there are definitions (`ends_of_acyclic`), and inductions go along them.
-/

import Mathlib.Data.List.Chain
import Mathlib.Data.List.Perm.Subperm
import Mathlib.Logic.Relation
import RegexBuilder.Proofs.Substitution

namespace RegexBuilder.Description

open List

open Relation

/-! ### Names -/

theorem checkNames_cons (seen : List Text) (d : Definition) (ds : List Definition) :
    checkNames seen (d :: ds) =
      if d.name ∈ keywords then .error (.keyword d.pos d.name)
      else if d.name ∈ seen then .error (.definedTwice d.pos d.name)
      else checkNames (d.name :: seen) ds := rfl

variable {ds : List Definition} {ts : List Tree} {lib : Library}

theorem checkNames_eq_ok {seen : List Text} :
    checkNames seen ds = .ok () ↔ (∀ d ∈ ds, d.name ∉ keywords) ∧ (∀ d ∈ ds, d.name ∉ seen) ∧
      (ds.map Definition.name).Nodup := by
  induction ds generalizing seen with
  | nil =>
    have hnil : checkNames seen [] = .ok () := rfl
    simp [hnil]
  | cons d ds ih =>
    rw [checkNames_cons]
    by_cases hkey : d.name ∈ keywords
    · simp [hkey]
    · by_cases hseen : d.name ∈ seen
      · simp [hkey, hseen]
      · simp only [if_neg hkey, if_neg hseen, ih, map_cons, nodup_cons, mem_cons, mem_map]
        grind

/-- The names of the definitions may be used, and no two definitions have the same one. -/
structure HaveNames (ds : List Definition) : Prop where
  notKeyword : ∀ d ∈ ds, d.name ∉ keywords
  nodup : (ds.map Definition.name).Nodup

theorem haveNames_iff : checkNames [] ds = .ok () ↔ HaveNames ds := by
  rw [checkNames_eq_ok]
  exact ⟨fun h => ⟨h.1, h.2.2⟩, fun h => ⟨h.1, fun _ _ => not_mem_nil, h.2⟩⟩

section

variable {ds : List Definition}

theorem exists_of_nodeOf {x : Text} {i : NodeId} (h : nodeOf ds x = some i) : ∃ d, ds[i]? = some d ∧ d.name = x := by
  obtain ⟨hi, hx, -⟩ := List.findIdx?_eq_some_iff_getElem.1 h
  exact ⟨ds[i], getElem?_eq_getElem hi, of_decide_eq_true hx⟩

/-- The number of a definition is found by its name. -/
theorem HaveNames.nodeOf (h : HaveNames ds) {i : NodeId} {d : Definition} (hd : ds[i]? = some d) :
    nodeOf ds d.name = some i := by
  obtain ⟨hi, rfl⟩ := List.getElem?_eq_some_iff.1 hd
  refine List.findIdx?_eq_some_iff_getElem.2 ⟨hi, decide_eq_true rfl, fun j hj hname => ?_⟩
  have hname : ds[j].name = ds[i].name := of_decide_eq_true hname
  have hlength : (ds.map Definition.name).length = ds.length := length_map _
  refine pairwise_iff_getElem.1 h.nodup j i (by rw [hlength]; exact Nat.lt_trans hj hi)
    (by rw [hlength]; exact hi) hj ?_
  rw [getElem_map, getElem_map]
  exact hname

end

/-! ### Trees -/

theorem definitionTrees_eq_ok {nodes : Text → Option NodeId} : definitionTrees nodes ds = .ok ts ↔
      Forall₂ (fun d t => exprTree nodes d.expr = .ok t) ds ts := by
  induction ds generalizing ts with
  | nil =>
    rw [definitionTrees, forall₂_nil_left_iff]
    exact ⟨fun h => by cases h; rfl, fun h => by rw [h]⟩
  | cons d ds ih =>
    rw [definitionTrees, forall₂_cons_left_iff]
    constructor
    · intro h
      obtain ⟨t, ht, h⟩ := bind_eq_ok.1 h
      obtain ⟨us, hus, h⟩ := bind_eq_ok.1 h
      cases h
      exact ⟨t, us, mapError_eq_ok.1 ht, ih.1 hus, rfl⟩
    · rintro ⟨t, us, ht, hus, rfl⟩
      rw [ht, ih.2 hus]
      rfl

/-- The graph with the trees as the children of its first groups. -/
def planted (ts : List Tree) : Graph :=
  (plantChildren 0 ts ⟨Array.replicate ts.length (.group none)⟩).2

/-- **Definitions are resolved if they have names and trees.** -/
theorem resolve_eq_ok : resolve ds = .ok lib ↔ HaveNames ds ∧ ∃ ts,
      Forall₂ (fun d t => exprTree (nodeOf ds) d.expr = .ok t) ds ts ∧
      lib = ⟨planted ts, namedFrom 0 ds⟩ := by
  unfold resolve
  constructor
  · intro h
    obtain ⟨⟨⟩, hnames, h⟩ := bind_eq_ok.1 h
    obtain ⟨ts, hts, h⟩ := bind_eq_ok.1 h
    cases h
    have hts := definitionTrees_eq_ok.1 hts
    refine ⟨haveNames_iff.1 hnames, ts, hts, ?_⟩
    rw [planted, ← hts.length_eq]
    rfl
  · rintro ⟨hnames, ts, hts, rfl⟩
    rw [haveNames_iff.2 hnames, definitionTrees_eq_ok.2 hts, planted, ← hts.length_eq]
    rfl

/-! ### Patterns -/

theorem getElem?_namedFrom (ds : List Definition) (i k : Nat) :
    (namedFrom i ds)[k]? = ds[k]?.map fun d => ⟨d.name, d.pos, i + k⟩ := by
  induction ds generalizing i k with
  | nil => rfl
  | cons d ds ih =>
    cases k with
    | zero => rfl
    | succ =>
      rw [namedFrom, getElem?_cons_succ, getElem?_cons_succ, ih]
      simp only [Nat.add_right_comm, Nat.add_assoc]

theorem mem_namedFrom {p : NamedPattern} :
    p ∈ namedFrom 0 ds ↔ ∃ d, ds[p.node]? = some d ∧ p.name = d.name ∧ p.pos = d.pos := by
  rw [mem_iff_getElem?]
  constructor
  · rintro ⟨k, hk⟩
    rw [getElem?_namedFrom, Option.map_eq_some_iff] at hk
    obtain ⟨d, hd, rfl⟩ := hk
    exact ⟨d, by simpa using hd, rfl, rfl⟩
  · rintro ⟨d, hd, hname, hpos⟩
    refine ⟨p.node, ?_⟩
    rw [getElem?_namedFrom, hd, Option.map_some, Nat.zero_add, ← hname, ← hpos]

theorem names_namedFrom (i : NodeId) (ds : List Definition) :
    (namedFrom i ds).map NamedPattern.name = ds.map Definition.name := by
  induction ds generalizing i with
  | nil => rfl
  | cons d ds ih => exact congrArg (d.name :: ·) (ih (i + 1))

/-! ### Planting the trees -/

/-- The graph before tree `k` is planted. -/
def stage (ts : List Tree) : (k : Nat) → Graph
  | 0 => ⟨Array.replicate ts.length (.group none)⟩
  | k + 1 =>
    match ts[k]? with
    | some t => (t.plant (stage ts k)).2.put k (.group (t.plant (stage ts k)).1)
    | none => stage ts k

theorem stage_succ {k : Nat} {t : Tree} (h : ts[k]? = some t) :
    stage ts (k + 1) = (t.plant (stage ts k)).2.put k (.group (t.plant (stage ts k)).1) := by
  rw [stage, h]

theorem plantChildren_drop (ts : List Tree) {i : Nat} (hi : i ≤ ts.length) :
    (plantChildren i (ts.drop i) (stage ts i)).2 = stage ts ts.length := by
  rcases Nat.lt_or_eq_of_le hi with hlt | rfl
  · rw [drop_eq_getElem_cons hlt]
    have hrest := plantChildren_drop ts hlt
    rwa [stage_succ (getElem?_eq_getElem hlt)] at hrest
  · rw [drop_length]
    rfl
termination_by ts.length - i

/-- The graph of the trees is what is left after the last of them. -/
theorem planted_eq_stage (ts : List Tree) : planted ts = stage ts ts.length :=
  plantChildren_drop ts (Nat.zero_le _)

section

variable {D : Text → Prop} {ts : List Tree} (hts : ∀ t ∈ ts, t.IsProper D)

include hts

/-- At every stage the graph is proper and begins with the groups of the definitions. -/
theorem stage_isProper (k : Nat) : (stage ts k).IsProper D ∧ ts.length ≤ (stage ts k).size ∧
      ∀ j : Nat, j < ts.length → ∃ c, (stage ts k).node? j = some (.group c) := by
  induction k with
  | zero =>
    have hnode : ∀ j : Nat, j < ts.length → (stage ts 0).node? j = some (.group none) := by
      intro j hj
      simp [stage, Graph.node?, hj]
    refine ⟨fun j n hn => ?_, Nat.le_of_eq Array.size_replicate.symm, fun j hj => ⟨none, hnode j hj⟩⟩
    have hj : j < ts.length := by
      simpa [stage, Graph.node?] using (Array.getElem?_eq_some_iff.1 hn).1
    rw [hnode j hj] at hn
    cases hn
    trivial
  | succ k ih =>
    obtain ⟨hproper, hsize, hgroups⟩ := ih
    cases ht : ts[k]? with
    | none =>
      rw [stage, ht]
      exact ⟨hproper, hsize, hgroups⟩
    | some t =>
      obtain ⟨hproper', hext, -⟩ := Tree.plant_stands (hts t (mem_of_getElem? ht)) hsize hproper
      obtain ⟨c, hc⟩ := hgroups k (List.getElem?_eq_some_iff.1 ht).1
      rw [stage_succ ht]
      refine ⟨hproper'.put_group (hext k _ hc) _, ?_, fun j hj => ?_⟩
      · rw [Graph.size_put]
        exact Nat.le_trans hsize hext.size_le
      · by_cases hkj : k = j
        · subst hkj
          exact ⟨_, Graph.node?_put_self _ (hext k _ hc)⟩
        · rw [Graph.node?_put_of_ne _ hkj]
          exact (hgroups j hj).imp fun c hc => hext j _ hc

variable {k l : Nat} {t : Tree}

/-- What planting a tree does at its stage. -/
theorem stage_plant (ht : ts[k]? = some t) : (stage ts k).Extends (t.plant (stage ts k)).2 ∧
      (t.plant (stage ts k)).2.Keeps ts.length (stage ts (k + 1)) ∧
      (stage ts (k + 1)).size = (t.plant (stage ts k)).2.size ∧
      (stage ts (k + 1)).node? k = some (.group (t.plant (stage ts k)).1) := by
  obtain ⟨hproper, hsize, hgroups⟩ := stage_isProper hts k
  obtain ⟨-, hext, -⟩ := Tree.plant_stands (hts t (mem_of_getElem? ht)) hsize hproper
  have hk : k < ts.length := (List.getElem?_eq_some_iff.1 ht).1
  obtain ⟨c, hc⟩ := hgroups k hk
  rw [stage_succ ht]
  exact ⟨hext, Graph.keeps_put _ hk _, Graph.size_put _ _ _, Graph.node?_put_self _ (hext k _ hc)⟩

/-- Later stages keep the nodes above the groups. -/
theorem stage_keeps (h : k ≤ l) :
    (stage ts k).Keeps ts.length (stage ts l) ∧ (stage ts k).size ≤ (stage ts l).size := by
  induction h with
  | refl => exact ⟨.refl _ _, Nat.le_refl _⟩
  | @step l _ ih =>
    obtain ⟨hkeeps, hsize⟩ := ih
    cases ht : ts[l]? with
    | none =>
      rw [stage, ht]
      exact ⟨hkeeps, hsize⟩
    | some =>
      obtain ⟨hext, hplant, hsize', -⟩ := stage_plant hts ht
      exact ⟨(hkeeps.trans (hext.keeps _)).trans hplant,
        Nat.le_trans hsize (Nat.le_trans hext.size_le (Nat.le_of_eq hsize'.symm))⟩

/-- Later stages keep the group of a definition whose tree has been planted. -/
theorem stage_node? (ht : ts[k]? = some t) (h : k + 1 ≤ l) :
    (stage ts l).node? k = some (.group (t.plant (stage ts k)).1) := by
  induction h with
  | refl => exact (stage_plant hts ht).2.2.2
  | @step l hkl ih =>
    cases hu : ts[l]? with
    | none =>
      rw [stage, hu]
      exact ih
    | some =>
      have hkl : k + 1 ≤ l := hkl
      rw [stage_succ hu, Graph.node?_put_of_ne _ (by omega)]
      exact (stage_plant hts hu).1 k _ ih

/-- **The graph of a description:** group `k` has the tree of definition `k` at its child, and all
nodes are proper if the trees are. -/
theorem planted_stands : (planted ts).IsProper D ∧ ∀ k t, ts[k]? = some t →
    ∃ r, (planted ts).node? k = some (.group r) ∧ t.Stands (planted ts) ts.length Eq r := by
  rw [planted_eq_stage]
  refine ⟨(stage_isProper hts _).1, fun k t ht => ?_⟩
  have hk : k < ts.length := (List.getElem?_eq_some_iff.1 ht).1
  obtain ⟨hproper, hsize, -⟩ := stage_isProper hts k
  obtain ⟨-, -, hstands⟩ := Tree.plant_stands (hts t (mem_of_getElem? ht)) hsize hproper
  refine ⟨_, stage_node? hts ht hk, hstands _ ?_⟩
  exact (stage_plant hts ht).2.1.trans (stage_keeps hts hk).1

end

/-- All atoms of the definitions' expressions are proper. -/
def AreProper (D : Text → Prop) (ds : List Definition) : Prop :=
  ∀ d ∈ ds, AllProper D (sequenceAtoms (fun _ => false) d.expr)

/-- The atoms are proper if the raw texts are as demanded. -/
theorem areProper_of_raw {D : Text → Prop} {ds : List Definition}
    (hraw : ∀ d ∈ ds, ∀ t, Atom.leaf .raw t ∈ sequenceAtoms (fun _ => false) d.expr → D t) : AreProper D ds := by
  intro d hd a ha
  cases a with
  | leaf which arg =>
    cases which with
    | raw => exact hraw d hd arg ha
    | _ => trivial
  | _ => trivial

theorem areProper_true (ds : List Definition) : AreProper (fun _ => True) ds :=
  areProper_of_raw fun _ _ _ _ => trivial

/-- **What a description becomes:** node `i` is the group of definition `i`, with the tree of its
expression. -/
theorem exists_stands_of_resolve {D : Text → Prop} (h : resolve ds = .ok lib) (hds : AreProper D ds) :
    lib.graph.IsProper D ∧ ∀ i d, ds[i]? = some d →
      ∃ t r, exprTree (nodeOf ds) d.expr = .ok t ∧ t.IsProper D ∧
        lib.graph.node? i = some (.group r) ∧ t.Stands lib.graph ds.length Eq r := by
  obtain ⟨-, ts, hts, rfl⟩ := resolve_eq_ok.1 h
  have hproper : ∀ t ∈ ts, t.IsProper D := by
    intro t ht
    obtain ⟨d, hd, ht⟩ := exists_mem_of_forall₂ hts.flip ht
    exact exprTree_isProper ht (hds d hd)
  obtain ⟨hgraph, hstands⟩ := planted_stands hproper
  refine ⟨hgraph, fun i d hd => ?_⟩
  obtain ⟨hi, rfl⟩ := List.getElem?_eq_some_iff.1 hd
  have hi' : i < ts.length := hts.length_eq ▸ hi
  obtain ⟨r, hr, ht⟩ := hstands i ts[i] (getElem?_eq_getElem hi')
  have htree := forall₂_iff_get.1 hts |>.2 i hi hi'
  exact ⟨ts[i], r, htree, hproper _ (getElem_mem hi'), hr, hts.length_eq ▸ ht⟩

/-! ### References -/

/-- The definition of `x` refers to `y`, not only where a quantifier is skipped. -/
def Refers (skips : Bounds → Bool) (ds : List Definition) (x y : Text) : Prop :=
  ∃ d ∈ ds, d.name = x ∧ y ∈ refsOf (sequenceAtoms skips d.expr)

/-- Every chain of references from `x` ends before it has `k` steps. -/
def Ends (skips : Bounds → Bool) (ds : List Definition) : Nat → Text → Prop
  | 0, _ => False
  | k + 1, x => ∀ y, Refers skips ds x y → Ends skips ds k y

section

variable {skips : Bounds → Bool} {ds : List Definition} {x : Text}

theorem exists_chain_of_not_ends : ∀ {k : Nat} {x : Text}, ¬ Ends skips ds k x →
    ∃ l, l.length = k ∧ (x :: l).IsChain (Refers skips ds)
  | 0, x, _ => ⟨[], rfl, .singleton x⟩
  | k + 1, x, h => by
    simp only [Ends, not_forall] at h
    obtain ⟨y, hxy, hy⟩ := h
    obtain ⟨l, rfl, hl⟩ := exists_chain_of_not_ends hy
    exact ⟨y :: l, rfl, .cons_cons hxy hl⟩

/-- A chain of references in which no name leads back to itself has no name twice. -/
theorem nodup_of_chain {l : List Text} (hchain : (x :: l).IsChain (Refers skips ds))
    (hacyclic : ∀ y, ReflTransGen (Refers skips ds) x y → ¬ TransGen (Refers skips ds) y y) : (x :: l).Nodup := by
  have hpairs : (x :: l).Pairwise (TransGen (Refers skips ds)) :=
    isChain_iff_pairwise.1 (hchain.imp fun _ _ h => .single h)
  refine hpairs.imp_of_mem fun {a b} ha _ hab heq => ?_
  subst heq
  refine hacyclic a ?_ hab
  rcases mem_cons.1 ha with rfl | ha
  · exact .refl
  · exact (rel_of_pairwise_cons hpairs ha).to_reflTransGen

/-- **Without a cycle the chains of references end.** -/
theorem ends_of_acyclic (hx : x ∈ ds.map Definition.name)
    (hdefined : ∀ y z, Refers skips ds y z → z ∈ ds.map Definition.name)
    (hacyclic : ∀ y, ReflTransGen (Refers skips ds) x y → ¬ TransGen (Refers skips ds) y y) :
    Ends skips ds ds.length x := by
  by_contra hnot
  obtain ⟨l, hl, hchain⟩ := exists_chain_of_not_ends hnot
  have hsub : ∀ {x : Text} {l : List Text}, (x :: l).IsChain (Refers skips ds) →
      x ∈ ds.map Definition.name → x :: l ⊆ ds.map Definition.name := by
    intro x l h hx
    induction l generalizing x with
    | nil => exact cons_subset.2 ⟨hx, nil_subset _⟩
    | cons y l ih =>
      obtain ⟨hxy, hl⟩ := isChain_cons_cons.1 h
      exact cons_subset.2 ⟨hx, ih hl (hdefined x y hxy)⟩
  have hlength := ((nodup_of_chain hchain hacyclic).subperm (hsub hchain hx)).length_le
  rw [length_cons, length_map] at hlength
  omega

/-- What a definition of a library refers to is defined. -/
theorem exists_of_refers {lib : Library} (h : resolve ds = .ok lib) {y : Text}
    (hxy : Refers skips ds x y) : ∃ i, nodeOf ds y = some i := by
  obtain ⟨-, ts, hts, -⟩ := resolve_eq_ok.1 h
  obtain ⟨d, hd, -, hy⟩ := hxy
  obtain ⟨t, -, ht⟩ := exists_mem_of_forall₂ hts hd
  obtain ⟨i, -, hi⟩ := exists_mem_of_forall₂ (exprTree_linked ht) hy
  exact ⟨i, hi⟩

theorem mem_names_of_nodeOf {y : Text} {i : NodeId} (h : nodeOf ds y = some i) : y ∈ ds.map Definition.name := by
  obtain ⟨d, hd, rfl⟩ := exists_of_nodeOf h
  exact mem_map_of_mem (mem_of_getElem? hd)

end

end RegexBuilder.Description
