/-
# The order of definitions

The order of the definitions decides which number the node of a definition has, and nothing else (`order_irrelevant`).
The tree of a definition is planted in step with itself (`exists_block`), so a definition adds a block of nodes that
stands in the other graph at another place (`Moved`).
-/

import RegexBuilder.Proofs.Lockstep
import RegexBuilder.Proofs.Renumbering
import RegexBuilder.Proofs.Resolved

namespace RegexBuilder.Description

open List Option

/-! ### Names and trees in another order -/

/-- Definition `i` of one list is definition `i'` of the other. -/
def SamePlace (ds ds' : List Definition) (i i' : NodeId) : Prop :=
  ∃ d, ds[i]? = some d ∧ ds'[i']? = some d

/-- The number in `ds'` of definition `i` of `ds`. -/
def numberIn (ds ds' : List Definition) (i : NodeId) : NodeId :=
  (ds[i]?.bind fun d => nodeOf ds' d.name).getD i

section

variable {ds ds' : List Definition} (hperm : ds.Perm ds')

include hperm

/-- Names are distinct in any order. -/
theorem HaveNames.perm (h : HaveNames ds) : HaveNames ds' :=
  ⟨fun d hd => h.notKeyword d (hperm.mem_iff.2 hd), (hperm.map Definition.name).nodup_iff.1 h.nodup⟩

variable (hnames : HaveNames ds)

include hnames

theorem samePlace_numberIn {i : NodeId} {d : Definition} (hd : ds[i]? = some d) :
    SamePlace ds ds' i (numberIn ds ds' i) := by
  obtain ⟨j, hj⟩ := mem_iff_getElem?.1 (hperm.mem_iff.1 (mem_of_getElem? hd))
  have hnode : nodeOf ds' d.name = some j := (hnames.perm hperm).nodeOf hj
  rw [numberIn, hd, bind_some, hnode]
  exact ⟨d, hd, hj⟩

theorem nodeOf_perm {x : Text} {i : NodeId} (h : nodeOf ds x = some i) : nodeOf ds' x = some (numberIn ds ds' i) := by
  obtain ⟨d, hd, rfl⟩ := exists_of_nodeOf h
  obtain ⟨e, he, he'⟩ := samePlace_numberIn hperm hnames hd
  obtain rfl : d = e := some_injective _ (hd.symm.trans he)
  exact (hnames.perm hperm).nodeOf he'

/-- The tree of an expression differs in the numbers of the definitions only. -/
theorem exprTree_perm {e : Expr} {t : Tree} (h : exprTree (nodeOf ds) e = .ok t) :
    exprTree (nodeOf ds') e = .ok (t.graft (Tree.renumber (numberIn ds ds'))) := by
  have hsame : Substitutes (nodeOf ds) (nodeOf ds') .ref (Tree.renumber (numberIn ds ds'))
      (sequenceAtoms (fun _ => false) e) := by
    intro x _ i hi pos
    rw [Atom.tree, nodeOf_perm hperm hnames hi]
    rfl
  have hnone : Tree.renumber (numberIn ds ds') none = .absent := rfl
  have hsubst := exprTree_subst hnone h hsame
  rwa [substSequences_ref] at hsubst

end

theorem exists_resolve_perm {ds ds' : List Definition} (hperm : ds.Perm ds')
    (h : ∃ lib, resolve ds = .ok lib) : ∃ lib', resolve ds' = .ok lib' := by
  obtain ⟨lib, hlib⟩ := h
  obtain ⟨hnames, ts, hts, -⟩ := resolve_eq_ok.1 hlib
  have htree : ∀ d ∈ ds', ∃ t, exprTree (nodeOf ds') d.expr = .ok t := by
    intro d hd
    obtain ⟨t, -, ht⟩ := exists_mem_of_forall₂ hts (hperm.mem_iff.2 hd)
    exact ⟨_, exprTree_perm hperm hnames ht⟩
  obtain ⟨ts', hts'⟩ := exists_forall₂ htree
  exact ⟨_, resolve_eq_ok.2 ⟨hnames.perm hperm, ts', hts', rfl⟩⟩

/-! ### Blocks of nodes -/

section

variable {ts : List Tree} (hts : ∀ t ∈ ts, t.IsProper fun _ => True)

include hts

/-- The blocks of different definitions do not overlap. -/
theorem block_unique {k l o p : Nat} (hk : (stage ts k).size + o < (stage ts (k + 1)).size)
    (hl : (stage ts l).size + p < (stage ts (l + 1)).size)
    (h : (stage ts k).size + o = (stage ts l).size + p) : k = l := by
  rcases Nat.lt_trichotomy k l with hlt | heq | hgt
  · have hle : (stage ts (k + 1)).size ≤ (stage ts l).size := (stage_keeps hts hlt).2
    omega
  · exact heq
  · have hle : (stage ts (l + 1)).size ≤ (stage ts k).size := (stage_keeps hts hgt).2
    omega

theorem length_le_size_stage (k : Nat) : ts.length ≤ (stage ts k).size := (stage_isProper hts k).2.1

end

/-- Both references are absent, or they lead to the groups of one definition, or to the same place of
that definition's block. -/
def Moved (ds ds' : List Definition) (ts ts' : List Tree) (r r' : Ref) : Prop :=
  (r = none ∧ r' = none) ∨ (∃ i i', r = some i ∧ r' = some i' ∧ SamePlace ds ds' i i') ∨
    ∃ k k' o, SamePlace ds ds' k k' ∧ (stage ts k).size + o < (stage ts (k + 1)).size ∧
      (stage ts' k').size + o < (stage ts' (k' + 1)).size ∧
      r = some ((stage ts k).size + o) ∧ r' = some ((stage ts' k').size + o)

section

variable {ds ds' : List Definition} {ts ts' : List Tree} (hperm : ds.Perm ds')
  (hnames : HaveNames ds)
  (hts : Forall₂ (fun d t => exprTree (nodeOf ds) d.expr = .ok t) ds ts)
  (hts' : Forall₂ (fun d t => exprTree (nodeOf ds') d.expr = .ok t) ds' ts')

theorem isProper_of_exprTree (hts : Forall₂ (fun d t => exprTree (nodeOf ds) d.expr = .ok t) ds ts) :
    ∀ t ∈ ts, t.IsProper fun _ => True := by
  intro t ht
  obtain ⟨d, hd, ht⟩ := exists_mem_of_forall₂ hts.flip ht
  exact exprTree_isProper ht (areProper_true ds d hd)

include hperm hnames hts hts'

/-- **A definition adds the same block of nodes in both orders,** up to what the nodes refer to. -/
theorem exists_block {k k' : NodeId} (hk : SamePlace ds ds' k k') :
    ∃ w, (stage ts (k + 1)).size = (stage ts k).size + w ∧
      (stage ts' (k' + 1)).size = (stage ts' k').size + w ∧
      (∀ o < w, ∃ n n', (planted ts).node? ((stage ts k).size + o) = some n ∧
        (planted ts').node? ((stage ts' k').size + o) = some n' ∧
        n.Alike (Shifted (SamePlace ds ds') (stage ts k).size (stage ts' k').size w) n') ∧
      ∃ c c', (planted ts).node? k = some (.group c) ∧ (planted ts').node? k' = some (.group c') ∧
        Shifted (SamePlace ds ds') (stage ts k).size (stage ts' k').size w c c' := by
  have hproper := isProper_of_exprTree hts
  have hproper' := isProper_of_exprTree hts'
  obtain ⟨d, hd, hd'⟩ := hk
  obtain ⟨hk, rfl⟩ := List.getElem?_eq_some_iff.1 hd
  obtain ⟨hk', hd'⟩ := List.getElem?_eq_some_iff.1 hd'
  have hlt : k < ts.length := hts.length_eq ▸ hk
  have hlt' : k' < ts'.length := hts'.length_eq ▸ hk'
  have htree : exprTree (nodeOf ds) ds[k].expr = .ok ts[k] := forall₂_iff_get.1 hts |>.2 k hk hlt
  have htree' : exprTree (nodeOf ds') ds'[k'].expr = .ok ts'[k'] := forall₂_iff_get.1 hts' |>.2 k' hk' hlt'
  -- the tree in the other order is the same one with other numbers
  have hgraft : ts'[k'] = ts[k].graft (Tree.renumber (numberIn ds ds')) := by
    rw [hd', exprTree_perm hperm hnames htree] at htree'
    exact (Except.ok.inj htree').symm
  have hlinks : ∀ i ∈ ts[k].links fun _ => false, SamePlace ds ds' i (numberIn ds ds' i) := by
    intro i hi
    obtain ⟨x, -, hx⟩ := exists_mem_of_forall₂ (exprTree_linked htree).flip hi
    obtain ⟨e, he, -⟩ := exists_of_nodeOf hx
    exact samePlace_numberIn hperm hnames he
  have hpaired : Paired (SamePlace ds ds') (stage ts k).size (stage ts' k').size (fun _ => True)
      ts[k].plant ts'[k'].plant (Shifted (SamePlace ds ds') (stage ts k).size (stage ts' k').size) := by
    rw [hgraft]
    exact Tree.plant_paired (hproper _ (getElem_mem hlt)) hlinks
  obtain ⟨w, -, hstep, hroot⟩ := hpaired _ _ 0 (inStep_zero _ _ _) fun _ _ => trivial
  have hget : ts[k]? = some ts[k] := getElem?_eq_getElem hlt
  have hget' : ts'[k']? = some ts'[k'] := getElem?_eq_getElem hlt'
  obtain ⟨-, hkeeps, hsize, -⟩ := stage_plant hproper hget
  obtain ⟨-, hkeeps', hsize', -⟩ := stage_plant hproper' hget'
  rw [planted_eq_stage, planted_eq_stage]
  refine ⟨w, hsize.trans hstep.size, hsize'.trans hstep.size', fun o ho => ?_, _, _,
    stage_node? hproper hget hlt, stage_node? hproper' hget' hlt', hroot w (Nat.le_refl w)⟩
  obtain ⟨n, n', hn, hn', halike⟩ := hstep.alike o ho
  refine ⟨n, n', (hkeeps.trans (stage_keeps hproper hlt).1) _ n ?_ hn,
    (hkeeps'.trans (stage_keeps hproper' hlt').1) _ n' ?_ hn', halike⟩
  · exact Nat.le_trans (length_le_size_stage hproper k) (Nat.le_add_right _ _)
  · exact Nat.le_trans (length_le_size_stage hproper' k') (Nat.le_add_right _ _)

/-- **The graphs of two orders mirror each other.** -/
theorem isMirror_moved : (planted ts).IsMirror (planted ts') (Moved ds ds' ts ts') := by
  have hmoved : ∀ {k k' : NodeId} {w : Nat}, SamePlace ds ds' k k' →
      (stage ts (k + 1)).size = (stage ts k).size + w →
      (stage ts' (k' + 1)).size = (stage ts' k').size + w → ∀ r r',
      Shifted (SamePlace ds ds') (stage ts k).size (stage ts' k').size w r r' →
      Moved ds ds' ts ts' r r' := by
    rintro k k' w hk hw hw' r r' (hnone | hold | ⟨o, ho, rfl, rfl⟩)
    · exact .inl hnone
    · exact .inr (.inl hold)
    · exact .inr (.inr ⟨k, k', o, hk, by omega, by omega, rfl, rfl⟩)
  refine ⟨.inl ⟨rfl, rfl⟩, ?_⟩
  rintro _ _ (⟨rfl, rfl⟩ | ⟨k, k', rfl, rfl, hk⟩ | ⟨k, k', o, hk, ho, ho', rfl, rfl⟩)
  · exact .inl ⟨rfl, rfl⟩
  · obtain ⟨w, hw, hw', -, c, c', hc, hc', hroot⟩ := exists_block hperm hnames hts hts' hk
    exact .inr ⟨_, _, hc, hc', .group (hmoved hk hw hw' _ _ hroot)⟩
  · obtain ⟨w, hw, hw', hnodes, -⟩ := exists_block hperm hnames hts hts' hk
    obtain ⟨n, n', hn, hn', halike⟩ := hnodes o (by omega)
    exact .inr ⟨n, n', hn, hn', halike.mono (hmoved hk hw hw')⟩

end

section

variable {ds ds' : List Definition} {ts ts' : List Tree}

variable {i i' j' : NodeId}

theorem SamePlace.flip (h : SamePlace ds ds' i i') : SamePlace ds' ds i' i :=
  h.imp fun _ => And.symm

theorem Moved.flip {r r' : Ref} (h : Moved ds ds' ts ts' r r') : Moved ds' ds ts' ts r' r := by
  rcases h with ⟨hr, hr'⟩ | ⟨i, i', hr, hr', hi⟩ | ⟨k, k', o, hk, ho, ho', hr, hr'⟩
  · exact .inl ⟨hr', hr⟩
  · exact .inr (.inl ⟨i', i, hr', hr, hi.flip⟩)
  · exact .inr (.inr ⟨k', k, o, hk.flip, ho', ho, hr', hr⟩)

theorem SamePlace.unique (hnames : HaveNames ds') (hi : SamePlace ds ds' i i')
    (hj : SamePlace ds ds' i j') : i' = j' := by
  obtain ⟨d, hd, hd'⟩ := hi
  obtain ⟨e, he, he'⟩ := hj
  obtain rfl : d = e := some_injective _ (hd.symm.trans he)
  exact some_injective _ ((hnames.nodeOf hd').symm.trans (hnames.nodeOf he'))

/-- A node has one place in the other graph. -/
theorem Moved.unique (hnames : HaveNames ds')
    (hts : Forall₂ (fun d t => exprTree (nodeOf ds) d.expr = .ok t) ds ts)
    (hi : Moved ds ds' ts ts' (some i) (some i')) (hj : Moved ds ds' ts ts' (some i) (some j')) : i' = j' := by
  have hproper := isProper_of_exprTree hts
  -- the groups come before all blocks
  have hgroup : ∀ {k k' : NodeId}, SamePlace ds ds' k k' → ∀ l o : Nat, k ≠ (stage ts l).size + o := by
    rintro k k' ⟨d, hd, -⟩ l o rfl
    have hlength := length_le_size_stage hproper l
    rw [← hts.length_eq] at hlength
    exact absurd (List.getElem?_eq_some_iff.1 hd).1 (by omega)
  rcases hi with ⟨hi, -⟩ | ⟨_, _, ⟨⟩, ⟨⟩, hi⟩ | ⟨k, k', o, hk, ho, -, hi, hi'⟩
  · cases hi
  · rcases hj with ⟨hj, -⟩ | ⟨_, _, ⟨⟩, ⟨⟩, hj⟩ | ⟨l, l', p, -, -, -, hj, -⟩
    · cases hj
    · exact hi.unique hnames hj
    · exact absurd (some_injective _ hj) (hgroup hi l p)
  · rcases hj with ⟨hj, -⟩ | ⟨_, _, ⟨⟩, ⟨⟩, hj⟩ | ⟨l, l', p, hl, hp, -, hj, hj'⟩
    · cases hj
    · exact absurd (some_injective _ hi) (hgroup hj k o)
    · have heq : (stage ts k).size + o = (stage ts l).size + p := some_injective _ (hi.symm.trans hj)
      obtain rfl := block_unique hproper ho hp heq
      obtain rfl := Nat.add_left_cancel heq
      obtain rfl := hk.unique hnames hl
      exact some_injective _ (hi'.trans hj'.symm)

end

/-! ### Other orders -/

/-- **The order of the definitions does not matter.** If the definitions are given in another order,
they have patterns as before, in the new order, and every pattern is written, is empty and is single as
the one of the same name before, or fails in the same way. -/
theorem order_irrelevant {ds ds' : List Definition} (hperm : ds.Perm ds') :
    ((∃ lib, resolve ds = .ok lib) ↔ ∃ lib', resolve ds' = .ok lib') ∧
    ∀ lib lib', resolve ds = .ok lib → resolve ds' = .ok lib' →
      lib.patterns.map NamedPattern.name = ds.map Definition.name ∧
      lib'.patterns.map NamedPattern.name = ds'.map Definition.name ∧
      ∀ p ∈ lib.patterns, ∀ p' ∈ lib'.patterns, p.name = p'.name →
        SameOutcome lib.graph lib'.graph (lib.graph.render (some p.node))
          (lib'.graph.render (some p'.node)) ∧
        SameOutcome lib.graph lib'.graph (lib.graph.isEmpty (some p.node))
          (lib'.graph.isEmpty (some p'.node)) ∧
        SameOutcome lib.graph lib'.graph (lib.graph.isSingle (some p.node))
          (lib'.graph.isSingle (some p'.node)) := by
  refine ⟨⟨exists_resolve_perm hperm, exists_resolve_perm hperm.symm⟩, ?_⟩
  intro lib lib' hlib hlib'
  obtain ⟨hnames, ts, hts, rfl⟩ := resolve_eq_ok.1 hlib
  obtain ⟨hnames', ts', hts', rfl⟩ := resolve_eq_ok.1 hlib'
  refine ⟨names_namedFrom 0 ds, names_namedFrom 0 ds', fun p hp p' hp' hname => ?_⟩
  obtain ⟨d, hd, hpname, -⟩ := mem_namedFrom.1 hp
  obtain ⟨d', hd', hpname', -⟩ := mem_namedFrom.1 hp'
  have hplace : SamePlace ds ds' p.node p'.node := by
    obtain ⟨e, he, he'⟩ := samePlace_numberIn hperm hnames hd
    obtain rfl : d = e := some_injective _ (hd.symm.trans he)
    have hnode := hnames'.nodeOf he'
    rw [← hpname, hname, hpname', hnames'.nodeOf hd'] at hnode
    exact ⟨d, hd, some_injective _ hnode ▸ he'⟩
  have hmirror := isMirror_moved hperm hnames hts hts'
  have hone : IsOneToOne (Moved ds ds' ts ts') := by
    refine fun {i j i' j'} hi hj => ⟨?_, ?_⟩
    · rintro rfl
      exact hi.unique hnames' hts hj
    · rintro rfl
      exact hi.flip.unique hnames hts' hj.flip
  have hr : Moved ds ds' ts ts' (some p.node) (some p'.node) := .inr (.inl ⟨_, _, rfl, rfl, hplace⟩)
  exact ⟨hmirror.render_sameOutcome hone hr, hmirror.isEmpty_sameOutcome hone hr,
    hmirror.isSingle_sameOutcome hone hr⟩

/-- `Pair` refers to `Item` twice, and to itself behind that. -/
def pairOfItems : Definition :=
  let pos : Position := ⟨[], 1, 1⟩
  ⟨pos, "Pair", [[.mk pos (.ref "Item") (some ⟨.plus, true⟩), .mk pos (.ref "Item") none],
    [.mk pos (.ref "Pair") none]]⟩

def itemOfDigits : Definition :=
  let pos : Position := ⟨[], 2, 1⟩
  ⟨pos, "Item", [[.mk pos (.cls .digit) none, .mk pos (.literal "-") none]]⟩

/-- A definition may come after what refers to it, or before. -/
theorem order_irrelevant_pair : ∃ lib lib', resolve [pairOfItems, itemOfDigits] = .ok lib ∧
    resolve [itemOfDigits, pairOfItems] = .ok lib' ∧
    SameOutcome lib.graph lib'.graph (lib.graph.render (some 0)) (lib'.graph.render (some 1)) ∧
    SameOutcome lib.graph lib'.graph (lib.graph.render (some 1)) (lib'.graph.render (some 0)) := by
  obtain ⟨-, hsame⟩ := order_irrelevant (.swap itemOfDigits pairOfItems [])
  obtain ⟨-, -, houtcome⟩ := hsame _ _ rfl rfl
  refine ⟨_, _, rfl, rfl, ?_, ?_⟩
  · exact (houtcome ⟨"Pair", _, 0⟩ mem_cons_self ⟨"Pair", _, 1⟩
      (mem_cons_of_mem _ mem_cons_self) rfl).1
  · exact (houtcome ⟨"Item", _, 1⟩ (mem_cons_of_mem _ mem_cons_self) ⟨"Item", _, 0⟩
      mem_cons_self rfl).1

end RegexBuilder.Description
