/-
# Recursive definitions

That a cycle is not overlooked needs an argument, because a rule does not ask about all that lies below its node.
What it leaves out it takes to be empty, or replaces by its core. So answers tell that there is no cycle
(`Graph.Clears`): below what has a text or is empty there is none, and below what has a core there is none if there
is none below the core. References below a quantifier that allows no repetition do not count (`recursion_reported`).
-/

import RegexBuilder.Proofs.Pruning
import RegexBuilder.Proofs.Resolved

namespace RegexBuilder

open List Option Relation Rule

/-! ### What answers tell about cycles -/

/-- There is no cycle below what sets refer to, conditionals have no expression, and quantifiers that allow no
repetition have no child. -/
structure Graph.IsSpare (g : Graph) : Prop where
  set : ∀ {i s}, g.node? i = some (.set s) → ∀ r ∈ s.refs, ¬ g.HasCycleFrom r
  conditional : ∀ {i t e yes no}, g.node? i = some (.conditional t e yes no) → e = none
  quantified : ∀ {i b c}, g.node? i = some (.quantified b c) → b.max = 0 → c = none

/-- What an answer tells about cycles. -/
def Graph.Clears (g : Graph) : Constraint
  | .text, r, _ => ¬ g.HasCycleFrom r
  | .core, r, u => ¬ g.HasCycleFrom u → ¬ g.HasCycleFrom r
  | .empty, r, e => e = true → ¬ g.HasCycleFrom r
  | .single, _, _ => True

section

variable {g : Graph} {i : NodeId}

theorem Rule.write_clears (r : Ref) : (Rule.write r).Upholds g.Clears fun _ => ¬ g.HasCycleFrom r := fun _ h => h

/-- What is left of a list after the empty references are dropped tells about the whole list. -/
theorem nonEmpty_clears (cs : List Ref) : (nonEmpty cs).Upholds g.Clears fun rs =>
      (∀ r ∈ rs, ¬ g.HasCycleFrom r) → ∀ c ∈ cs, ¬ g.HasCycleFrom c := by
  induction cs with
  | nil => exact .pure fun _ c hc => absurd hc not_mem_nil
  | cons c cs ih =>
    refine (Upholds.ask .empty c).bind fun e he => ih.bind fun others hothers => .pure ?_
    cases e with
    | true => exact fun h => forall_mem_cons.2 ⟨he rfl, hothers h⟩
    | false =>
      intro h
      obtain ⟨hc, h⟩ := forall_mem_cons.1 h
      exact forall_mem_cons.2 ⟨hc, hothers h⟩

theorem writeSingle_clears (r : Ref) : (writeSingle r).Upholds g.Clears fun _ => ¬ g.HasCycleFrom r := by
  refine (Upholds.ask .single r).bind fun single _ => ?_
  cases single with
  | true => exact write_clears r
  | false => exact fun _ h => h

theorem writeBranch_clears (r : Ref) : (writeBranch g r).Upholds g.Clears fun _ => ¬ g.HasCycleFrom r := by
  refine (Upholds.ask .core r).bind fun u hu => ?_
  split
  · exact fun _ h => hu h
  · exact fun _ h => hu h

theorem writeRest_clears (rs : List Ref) : (writeRest g rs).Upholds g.Clears fun _ => ∀ r ∈ rs, ¬ g.HasCycleFrom r := by
  induction rs with
  | nil => exact .pure fun r hr => absurd hr not_mem_nil
  | cons r rs ih =>
    intro t
    refine (writeBranch_clears r).bind fun _ hr => ?_
    exact ih.mono fun _ hrs => forall_mem_cons.2 ⟨hr, hrs⟩

theorem writeBranches_clears (rs : List Ref) :
    (writeBranches rs).Upholds g.Clears fun _ => ∀ r ∈ rs, ¬ g.HasCycleFrom r := by
  induction rs with
  | nil => exact .pure fun r hr => absurd hr not_mem_nil
  | cons r rs ih =>
    refine (write_clears r).bind fun _ hr => ?_
    exact ih.mono fun _ hrs => forall_mem_cons.2 ⟨hr, hrs⟩

/-- A group is empty, or its contents are written. -/
theorem writeGroup_clears (opening : Text) {contents : Rule Unit}
    (h : contents.Upholds g.Clears fun _ => ¬ g.HasCycleFrom (some i)) :
    (writeGroup i opening contents).Upholds g.Clears fun _ => ¬ g.HasCycleFrom (some i) := by
  refine (Upholds.ask .empty (some i)).bind fun e he => ?_
  cases e with
  | true => exact he rfl
  | false => exact h.bind fun _ hi => hi

theorem writeConditional_clears (c : Condition) (e yes no : Ref) :
    (writeConditional g i c e yes no).Upholds g.Clears fun _ => ¬ g.HasCycleFrom yes ∧ ¬ g.HasCycleFrom no := by
  refine (Upholds.of_forall (Q := fun _ => True) _ fun _ => trivial).bind fun _ _ => ?_
  refine (writeBranch_clears yes).bind fun _ hyes => ?_
  refine (Upholds.ask .empty no).bind fun e he => ?_
  cases e with
  | true => exact ⟨hyes, he rfl⟩
  | false => exact (writeBranch_clears no).mono fun _ hno => ⟨hyes, hno⟩

variable {n : Node} (hn : g.node? i = some n)

include hn

/-- A node without a child, or whose child tells that there is no cycle. -/
theorem not_hasCycleFrom_of_child {c : Ref} (hrefs : n.refs = [c]) (hc : ¬ g.HasCycleFrom c) :
    ¬ g.HasCycleFrom (some i) := by
  refine Graph.not_hasCycleFrom_of_refs hn fun r hr => ?_
  rw [hrefs] at hr
  exact mem_singleton.1 hr ▸ hc

theorem writeQuantified_clears {b : Bounds} {c : Ref} (hrefs : n.refs = [c]) :
    (writeQuantified g i b c).Upholds g.Clears fun _ => ¬ g.HasCycleFrom (some i) := by
  refine (Upholds.ask .empty (some i)).bind fun e he => ?_
  cases e with
  | true => exact he rfl
  | false =>
    refine (Upholds.ask .core c).bind fun u hu => ?_
    have hchild : ¬ g.HasCycleFrom u → ¬ g.HasCycleFrom (some i) := fun h =>
      not_hasCycleFrom_of_child hn hrefs (hu h)
    split
    · trivial
    · trivial
    · split
      · exact (write_clears u).mono fun _ => hchild
      · exact (writeSingle_clears u).bind fun _ h => hchild h

/-- **There is no cycle below a node that is written.** -/
theorem Node.write_clears (hg : g.IsSpare) : (n.write g i).Upholds g.Clears fun _ => ¬ g.HasCycleFrom (some i) := by
  cases n with
  | leaf => exact .of_forall _ fun _ => Graph.not_hasCycleFrom_of_refs hn nofun
  | set => exact .of_forall _ fun _ => Graph.not_hasCycleFrom_of_refs hn (hg.set hn)
  | concat cs =>
    refine (nonEmpty_clears cs).bind fun rs hrs => ?_
    have hi : (∀ r ∈ rs, ¬ g.HasCycleFrom r) → ¬ g.HasCycleFrom (some i) := fun h =>
      Graph.not_hasCycleFrom_of_refs hn (hrs h)
    split
    · exact hi nofun
    · exact (write_clears _).mono fun _ h => hi (forall_mem_singleton.2 h)
    · refine (writeBranch_clears _).bind fun _ h => ?_
      exact (writeRest_clears _).mono fun _ hrest => hi (forall_mem_cons.2 ⟨h, hrest⟩)
  | alternation cs =>
    cases cs with
    | nil => exact Graph.not_hasCycleFrom_of_refs hn nofun
    | cons r rs =>
      refine (write_clears r).bind fun _ h => ?_
      refine (writeBranches_clears rs).mono fun _ hrest => ?_
      exact Graph.not_hasCycleFrom_of_refs hn (forall_mem_cons.2 ⟨h, hrest⟩)
  | quantified => exact writeQuantified_clears hn rfl
  | group c => exact (write_clears c).mono fun _ => not_hasCycleFrom_of_child hn rfl
  | enclosed how c =>
    exact writeGroup_clears _ ((write_clears c).mono fun _ => not_hasCycleFrom_of_child hn rfl)
  | conditional t e yes no =>
    refine writeGroup_clears _ ((writeConditional_clears t e yes no).mono fun _ h => ?_)
    refine Graph.not_hasCycleFrom_of_refs hn fun r hr => ?_
    rcases mem_cons.1 hr with rfl | hr
    · rw [hg.conditional hn]
      exact Graph.not_hasCycleFrom_of_deref? rfl
    · rcases mem_pair.1 hr with rfl | rfl
      · exact h.1
      · exact h.2
  | modified on off c =>
    refine writeGroup_clears _ ?_
    split
    · exact (write_clears c).mono fun _ => not_hasCycleFrom_of_child hn rfl
    · trivial

/-- **There is no cycle below a node that is empty.** -/
theorem Node.isEmpty_clears (hg : g.IsSpare) :
    (n.isEmpty g i).Upholds g.Clears fun e => e = true → ¬ g.HasCycleFrom (some i) := by
  have hask : ∀ {c : Ref}, n.refs = [c] → (Rule.ask .empty c).Upholds g.Clears fun e =>
      e = true → ¬ g.HasCycleFrom (some i) := fun hrefs =>
    (Upholds.ask .empty _).mono fun e he h => not_hasCycleFrom_of_child hn hrefs (he h)
  cases n with
  | leaf => exact .pure fun _ => Graph.not_hasCycleFrom_of_refs hn nofun
  | set => exact .pure fun _ => Graph.not_hasCycleFrom_of_refs hn (hg.set hn)
  | concat cs =>
    refine (nonEmpty_clears cs).bind fun rs hrs => .pure fun hempty => ?_
    obtain rfl := List.isEmpty_iff.1 hempty
    exact Graph.not_hasCycleFrom_of_refs hn (hrs nofun)
  | alternation cs =>
    match cs with
    | [] => exact .pure fun _ => Graph.not_hasCycleFrom_of_refs hn nofun
    | [r] => exact hask rfl
    | _ :: _ :: _ => exact .pure fun h => by cases h
  | quantified b c =>
    rw [Node.isEmpty]
    split
    · trivial
    split
    · next hmax =>
      refine .pure fun _ => not_hasCycleFrom_of_child hn rfl ?_
      rw [hg.quantified hn hmax]
      exact Graph.not_hasCycleFrom_of_deref? rfl
    · refine (Upholds.ask .core c).bind fun u hu => ?_
      refine (Upholds.ask .empty u).mono fun e he h => ?_
      exact not_hasCycleFrom_of_child hn rfl (hu (he h))
  | group => exact hask rfl
  | enclosed how c =>
    cases how with
    | look =>
      rw [Node.isEmpty]
      split
      · exact .pure fun h => by cases h
      · exact hask rfl
    | capture | named | balancing | atomic => exact hask rfl
  | conditional t e yes no =>
    refine (Upholds.ask .empty yes).bind fun a ha => ?_
    cases a with
    | false => exact .pure fun h => by cases h
    | true =>
      refine (Upholds.ask .empty no).mono fun b hb h => ?_
      refine Graph.not_hasCycleFrom_of_refs hn fun r hr => ?_
      rcases mem_cons.1 hr with rfl | hr
      · rw [hg.conditional hn]
        exact Graph.not_hasCycleFrom_of_deref? rfl
      · rcases mem_pair.1 hr with rfl | rfl
        · exact ha rfl
        · exact hb h
  | modified =>
    rw [Node.isEmpty]
    split
    · next habsent =>
      refine .pure fun _ => not_hasCycleFrom_of_child hn rfl ?_
      exact Graph.not_hasCycleFrom_of_deref? (isNone_iff_eq_none.1 habsent)
    · exact hask rfl

/-- **There is no cycle below a node if there is none below its core.** -/
theorem Node.core_clears : (n.core g i).Upholds g.Clears fun u => ¬ g.HasCycleFrom u → ¬ g.HasCycleFrom (some i) := by
  have hask : ∀ {c : Ref}, n.refs = [c] → (Rule.ask .core c).Upholds g.Clears fun u =>
      ¬ g.HasCycleFrom u → ¬ g.HasCycleFrom (some i) := fun hrefs =>
    (Upholds.ask .core _).mono fun u hu h => not_hasCycleFrom_of_child hn hrefs (hu h)
  cases n with
  | concat cs =>
    refine (nonEmpty_clears cs).bind fun rs hrs => ?_
    split
    · refine (Upholds.ask .core _).mono fun u hu h => ?_
      exact Graph.not_hasCycleFrom_of_refs hn (hrs (forall_mem_singleton.2 (hu h)))
    · exact .pure id
  | alternation cs =>
    match cs with
    | [] | _ :: _ :: _ => exact .pure id
    | [r] => exact hask rfl
  | quantified =>
    rw [Node.core]
    split
    · exact hask rfl
    · exact .pure id
  | group =>
    rw [Node.core]
    split
    · exact .pure id
    · exact hask rfl
  | leaf | set | enclosed | conditional | modified => exact .pure id

end

namespace Graph

theorem IsSpare.isUpheld_clears {g : Graph} (hg : g.IsSpare) : g.IsUpheld g.Clears := by
  refine ⟨fun q r hr => ?_, fun {i n} hn q => ?_⟩
  · cases q with
    | text => exact not_hasCycleFrom_of_deref? hr
    | core | empty => exact fun _ => not_hasCycleFrom_of_deref? hr
    | single => trivial
  · cases q with
    | text => exact (Node.write_clears hn hg).bind fun _ h _ => h
    | core => exact Node.core_clears hn
    | empty => exact Node.isEmpty_clears hn hg
    | single => exact .of_forall _ fun _ => trivial

/-- **What is written has no cycle below it.** -/
theorem IsSpare.not_hasCycleFrom {g : Graph} (hg : g.IsSpare) {r : Ref} {x : Text × Session}
    (h : g.questions true .text r {} = .ok x) : ¬ g.HasCycleFrom r :=
  ((asking_upholds hg.isUpheld_clears true _ _ .text r {} (Session.upholds_empty _)).1 x.1 x.2 h).1

/-- In a proper graph nothing is left to skip once quantifiers that allow no repetition are pruned. -/
theorem IsProper.isSpare_pruned {D : Text → Prop} {g : Graph} (hg : g.IsProper D)
    {skips : Bounds → Bool} (hskips : ∀ b, b.max = 0 → skips b = true) : (g.pruned skips).IsSpare := by
  have hleaf : ∀ {r : Ref} {l : Leaf}, g.deref? r = some (.leaf l) →
      ¬ (g.pruned skips).HasCycleFrom r := by
    intro r l hr
    obtain ⟨i, rfl, hi⟩ := bind_eq_some_iff.1 hr
    have hn : (g.pruned skips).node? i = some (.leaf l) := by
      rw [node?_pruned, hi]
      rfl
    exact not_hasCycleFrom_of_refs hn nofun
  refine ⟨fun {i s} hn => ?_, fun {i t e yes no} hn => ?_, fun {i b c} hn hmax => ?_⟩
  · obtain ⟨n, hi, hn⟩ := map_eq_some_iff.1 (node?_pruned i ▸ hn)
    cases n with
    | set =>
      cases hn
      obtain ⟨hmembers, hranges⟩ := hg i _ hi
      intro r hr
      simp only [CharacterSet.refs, mem_append, mem_flatMap, mem_pair] at hr
      simp only [mem_append] at hmembers hranges
      rcases hr with ((⟨x, hx, rfl | rfl⟩ | hr) | ⟨x, hx, rfl | rfl⟩) | hr
      · exact (hranges x (.inl hx)).1.elim fun _ => hleaf
      · exact (hranges x (.inl hx)).2.elim fun _ => hleaf
      · exact (hmembers r (.inl hr)).elim fun _ h => hleaf h.1
      · exact (hranges x (.inr hx)).1.elim fun _ => hleaf
      · exact (hranges x (.inr hx)).2.elim fun _ => hleaf
      · exact (hmembers r (.inr hr)).elim fun _ h => hleaf h.1
    | leaf l | concat cs | alternation cs | quantified b c | group c | enclosed how c
    | conditional | modified => cases hn
  · obtain ⟨n, hi, hn⟩ := map_eq_some_iff.1 (node?_pruned i ▸ hn)
    cases n with
    | conditional =>
      cases hn
      exact hg i _ hi
    | leaf l | set s | concat cs | alternation cs | quantified b c | group c | enclosed how c
    | modified => cases hn
  · obtain ⟨n, hi, hn⟩ := map_eq_some_iff.1 (node?_pruned i ▸ hn)
    cases n with
    | quantified =>
      cases hn
      rw [if_pos (hskips _ hmax)]
    | leaf l | set s | concat cs | alternation cs | group c | enclosed how c
    | conditional | modified => cases hn

end Graph

/-! ### Definitions -/

namespace Description

/-- The quantifier allows no repetition. -/
def allowsNone (b : Bounds) : Bool := b.max = 0

section

variable {D : Text → Prop} {skips : Bounds → Bool} {ds : List Definition} {lib : Library}
  (hlib : resolve ds = .ok lib) (hds : AreProper D ds)

include hlib hds

variable {x y : Text} {i : NodeId}

/-- What a definition refers to lies below its group. -/
theorem transGen_child_of_refers (h : Refers skips ds x y) (hi : nodeOf ds x = some i) :
    ∃ j, nodeOf ds y = some j ∧ TransGen (lib.graph.pruned skips).Child i j := by
  obtain ⟨hnames, -⟩ := resolve_eq_ok.1 hlib
  obtain ⟨-, hstands⟩ := exists_stands_of_resolve hlib hds
  obtain ⟨d, hd, rfl, hy⟩ := h
  obtain ⟨k, hk⟩ := mem_iff_getElem?.1 hd
  obtain rfl : k = i := some_injective _ ((hnames.nodeOf hk).symm.trans hi)
  obtain ⟨t, r, ht, -, hgroup, hr⟩ := hstands k d hk
  obtain ⟨j, hj, hyj⟩ := exists_mem_of_forall₂ (exprTree_linked ht) hy
  obtain ⟨e, he, -⟩ := exists_of_nodeOf hyj
  obtain ⟨-, r', -, -, hgroup', -⟩ := hstands j e he
  have hnode : ∃ m, (lib.graph.pruned skips).node? j = some m := by
    rw [Graph.node?_pruned, hgroup']
    exact ⟨_, rfl⟩
  have hbelow : (lib.graph.pruned skips).Below k r := by
    refine Graph.below_of_mem_refs (n := .group r) ?_ (mem_singleton.2 rfl)
    rw [Graph.node?_pruned, hgroup]
    rfl
  obtain ⟨l, rfl, hlj⟩ := hr.reaches hnode hj
  obtain ⟨m, hm⟩ := Graph.exists_node?_of_reflTransGen hlj hnode
  exact ⟨j, hyj, (hbelow l m rfl hm).trans_left hlj⟩

theorem transGen_child_of_transGen_refers (h : TransGen (Refers skips ds) x y) (hi : nodeOf ds x = some i) :
    ∃ j, nodeOf ds y = some j ∧ TransGen (lib.graph.pruned skips).Child i j := by
  induction h with
  | single h => exact transGen_child_of_refers hlib hds h hi
  | tail _ h ih =>
    obtain ⟨j, hj, hij⟩ := ih
    obtain ⟨k, hk, hjk⟩ := transGen_child_of_refers hlib hds h hj
    exact ⟨k, hk, hij.trans hjk⟩

/-- **A cycle of references is a cycle of the graph.** -/
theorem hasCycleFrom_of_refers (hxy : ReflTransGen (Refers skips ds) x y) (hy : TransGen (Refers skips ds) y y)
    (hi : nodeOf ds x = some i) : (lib.graph.pruned skips).HasCycleFrom (some i) := by
  have hreach : ∃ j, nodeOf ds y = some j ∧ ReflTransGen (lib.graph.pruned skips).Child i j := by
    rcases reflTransGen_iff_eq_or_transGen.1 hxy with rfl | hxy
    · exact ⟨i, hi, .refl⟩
    · obtain ⟨j, hj, hij⟩ := transGen_child_of_transGen_refers hlib hds hxy hi
      exact ⟨j, hj, hij.to_reflTransGen⟩
  obtain ⟨j, hj, hij⟩ := hreach
  obtain ⟨k, hk, hjk⟩ := transGen_child_of_transGen_refers hlib hds hy hj
  obtain rfl : k = j := some_injective _ (hk.symm.trans hj)
  exact ⟨k, ⟨i, rfl, hij⟩, hjk⟩

/-- **Where the chains of references end there is no cycle in the graph.** -/
theorem not_hasCycleFrom_of_ends : ∀ (k : Nat) {x : Text} {i : NodeId}, Ends skips ds k x →
    nodeOf ds x = some i → ¬ (lib.graph.pruned skips).HasCycleFrom (some i)
  | 0, _, _, h, _ => h.elim
  | k + 1, x, i, h, hi => by
    obtain ⟨-, hstands⟩ := exists_stands_of_resolve hlib hds
    obtain ⟨d, hd, rfl⟩ := exists_of_nodeOf hi
    obtain ⟨t, r, ht, -, hgroup, hr⟩ := hstands i d hd
    have hchild : ¬ (lib.graph.pruned skips).HasCycleFrom r := by
      refine hr.not_hasCycleFrom ?_ fun j hj r' hr' => ?_
      · rintro _ rfl
        exact Graph.not_hasCycleFrom_of_deref? rfl
      · subst hr'
        obtain ⟨y, hy, hyj⟩ := exists_mem_of_forall₂ (exprTree_linked ht).flip hj
        exact not_hasCycleFrom_of_ends k (h y ⟨d, mem_of_getElem? hd, rfl, hy⟩) hyj
    refine not_hasCycleFrom_of_child (n := .group r) ?_ rfl hchild
    rw [Graph.node?_pruned, hgroup]
    rfl

end

/-- From the name `x` references lead to a name that leads back to itself; those below a quantifier
that allows no repetition do not count. -/
def ReachesCycle (ds : List Definition) (x : Text) : Prop :=
  ∃ y, ReflTransGen (Refers allowsNone ds) x y ∧ TransGen (Refers allowsNone ds) y y

/-- **The graph without what is repeated no time has a cycle below a definition exactly if the
definition reaches one.** -/
theorem hasCycleFrom_iff_reachesCycle {ds : List Definition} {lib : Library}
    (hlib : resolve ds = .ok lib) {d : Definition} {i : NodeId} (hd : ds[i]? = some d) :
    (lib.graph.pruned allowsNone).HasCycleFrom (some i) ↔ ReachesCycle ds d.name := by
  obtain ⟨hnames, -⟩ := resolve_eq_ok.1 hlib
  have hi : nodeOf ds d.name = some i := hnames.nodeOf hd
  constructor
  · intro hcycle
    by_contra hnot
    have hends := ends_of_acyclic (mem_names_of_nodeOf hi)
      (fun _ _ h => (exists_of_refers hlib h).elim fun _ => mem_names_of_nodeOf) fun y hxy hy => hnot ⟨y, hxy, hy⟩
    exact not_hasCycleFrom_of_ends hlib (areProper_true ds) _ hends hi hcycle
  · rintro ⟨y, hxy, hy⟩
    exact hasCycleFrom_of_refers hlib (areProper_true ds) hxy hy hi

/-- **Recursive definitions are reported, and only those.** The patterns of a description are those of
its definitions. If a pattern's name reaches a cycle of references, the pattern cannot be written; if
not, no question about the pattern ends in a recursion error. -/
theorem recursion_reported {ds : List Definition} {lib : Library} (hlib : resolve ds = .ok lib) :
    lib.patterns.map NamedPattern.name = ds.map Definition.name ∧ ∀ p ∈ lib.patterns,
      (ReachesCycle ds p.name → ∃ f, lib.graph.render (some p.node) = .error f) ∧
      (¬ ReachesCycle ds p.name → ∀ q path,
        lib.graph.render (some p.node) ≠ .error (.recursion q path) ∧
        lib.graph.isEmpty (some p.node) ≠ .error (.recursion q path) ∧
        lib.graph.isSingle (some p.node) ≠ .error (.recursion q path) ∧
        lib.graph.core (some p.node) ≠ .error (.recursion q path)) := by
  obtain ⟨-, ts, -, hpatterns⟩ := resolve_eq_ok.1 hlib
  have hpatterns : lib.patterns = namedFrom 0 ds := by rw [hpatterns]
  refine ⟨hpatterns ▸ names_namedFrom 0 ds, fun p hp => ?_⟩
  obtain ⟨d, hd, hname, -⟩ := mem_namedFrom.1 (hpatterns ▸ hp)
  have hcycle := hasCycleFrom_iff_reachesCycle hlib hd
  have hpruned : ∀ q, lib.graph.questions true q (some p.node) {} =
      (lib.graph.pruned allowsNone).questions true q (some p.node) {} :=
    fun q => Graph.questions_pruned (fun _ => of_decide_eq_true) true q _
  rw [hname]
  constructor
  · intro hreaches
    cases hrender : lib.graph.render (some p.node) with
    | error f => exact ⟨f, rfl⟩
    | ok =>
      obtain ⟨y, hy, -⟩ := bind_eq_ok.1 hrender
      have hspare : (lib.graph.pruned allowsNone).IsSpare :=
        (exists_stands_of_resolve hlib (areProper_true ds)).1.isSpare_pruned fun _ => decide_eq_true
      exact absurd (hcycle.2 hreaches) (hspare.not_hasCycleFrom ((hpruned .text).symm.trans hy))
  · intro hnot q path
    have hquestion : ∀ q', lib.graph.questions true q' (some p.node) {} ≠ .error (.recursion q path) :=
      fun q' h => hnot (hcycle.1
        (Graph.questions_failsAs ((hpruned q').symm.trans h)).2)
    exact ⟨fun h => hquestion _ (Ask.eq_error_of_rendering h),
      fun h => hquestion _ (Ask.eq_error_of_answer h),
      fun h => hquestion _ (Ask.eq_error_of_answer h),
      fun h => hquestion _ (Ask.eq_error_of_answer h)⟩

/-- `Loop` refers to itself through `Calm`, and `Calm` to itself no time. -/
def loopAndCalm : List Definition :=
  let at0 : Position := { file := [], line := 1, column := 1 }
  [⟨at0, "Loop", [[.mk at0 (.ref "Calm") none, .mk at0 (.ref "Loop") none]]⟩,
   ⟨at0, "Calm", [[.mk at0 (.literal "a") none,
     .mk at0 (.ref "Calm") (some ⟨.braces 0 false none, false⟩)]]⟩]

/-- `Loop` cannot be written, and `Calm` gives no recursion error. -/
theorem recursion_reported_loopAndCalm : ∃ lib, resolve loopAndCalm = .ok lib ∧
    (∃ f, lib.graph.render (some 0) = .error f) ∧
    ∀ q path, lib.graph.render (some 1) ≠ .error (.recursion q path) := by
  have hloop : Refers allowsNone loopAndCalm "Loop" "Loop" :=
    ⟨_, mem_cons_self, rfl, by decide⟩
  have hnone : ∀ y, ¬ Refers allowsNone loopAndCalm "Calm" y := by
    rintro y ⟨d, hd, hname, hy⟩
    rcases mem_pair.1 hd with rfl | rfl
    · exact absurd hname (by decide)
    · exact not_mem_nil hy
  have hcalm : ¬ ReachesCycle loopAndCalm "Calm" := by
    rintro ⟨y, hxy, hyy⟩
    rcases hxy.cases_head with rfl | ⟨z, hz, -⟩
    · obtain ⟨z, hz, -⟩ := TransGen.head'_iff.1 hyy
      exact hnone z hz
    · exact hnone z hz
  refine ⟨_, rfl, ?_, fun q path => ?_⟩
  · exact ((recursion_reported rfl).2 ⟨"Loop", _, 0⟩ mem_cons_self).1 ⟨_, .refl, .single hloop⟩
  · exact (((recursion_reported rfl).2 ⟨"Calm", _, 1⟩
      (mem_cons_of_mem _ mem_cons_self)).2 hcalm q path).1

end Description
end RegexBuilder
