/-
# References and what they refer to

Where definitions do not refer to each other in a circle, every reference can be replaced by the expression that it
refers to, in parentheses, until none is left (`inlined`). A definition that is referred to several times is one node
of the graph and many of the result, but both unfold to the same tree (`Graph.Unfolds`), and so mirror each other.
-/

import RegexBuilder.Proofs.Pruning
import RegexBuilder.Proofs.Resolved
import RegexBuilder.Proofs.Sharing

namespace RegexBuilder

open List

/-! ### Unfoldings -/

variable {α β γ : Type}

theorem CharacterSet.Alike.join {A : α → β → Prop} {B : α → γ → Prop} {R : β → γ → Prop}
    (hR : ∀ a b c, A a b → B a c → R b c) {s : CharacterSet α} {t : CharacterSet β} {u : CharacterSet γ}
    (hA : s.Alike A t) (hB : s.Alike B u) : t.Alike R u := by
  have hrange : ∀ r t u, Range.Alike A r t → Range.Alike B r u → Range.Alike R t u :=
    fun _ _ _ hA hB => ⟨hR _ _ _ hA.1 hB.1, hR _ _ _ hA.2 hB.2⟩
  exact ⟨forall₂_join hrange hA.ranges hB.ranges, forall₂_join hR hA.members hB.members,
    forall₂_join hrange hA.subtractedRanges hB.subtractedRanges,
    forall₂_join hR hA.subtractedMembers hB.subtractedMembers, hA.negated.symm.trans hB.negated⟩

namespace Graph

/-- The pattern at `r` is the tree `t` when it is read as a tree; nothing of `t` is an old node. -/
def Unfolds (g : Graph) (t : Tree) (r : Ref) : Prop :=
  t.Stands g 0 (fun r₀ r => r₀ = none ∧ g.deref? r = none) r

/-- **Patterns with the same unfolding mirror each other.** -/
theorem isMirror_unfolds (g g' : Graph) : g.IsMirror g' fun r r' => ∃ t, g.Unfolds t r ∧ g'.Unfolds t r' := by
  refine ⟨⟨.existing none, ⟨rfl, rfl⟩, ⟨rfl, rfl⟩⟩, ?_⟩
  rintro r r' ⟨t, h, h'⟩
  unfold Unfolds at h h'
  cases t with
  | existing =>
    rw [Tree.Stands] at h h'
    exact .inl ⟨h.2, h'.2⟩
  | leaf l =>
    rw [Tree.Stands] at h h'
    exact .inr ⟨_, _, h.deref?, h'.deref?, .leaf l⟩
  | set =>
    rw [Tree.Stands] at h h'
    obtain ⟨t, hr, hs⟩ := h
    obtain ⟨t', hr', hs'⟩ := h'
    refine .inr ⟨_, _, hr.deref?, hr'.deref?, .set (hs.join ?_ hs')⟩
    rintro e c c' ⟨l, rfl, hl⟩ ⟨_, ⟨⟩, hl'⟩
    exact ⟨.leaf l, hl, hl'⟩
  | concat | alternation =>
    rw [Tree.Stands] at h h'
    obtain ⟨cs, hr, hcs⟩ := h
    obtain ⟨cs', hr', hcs'⟩ := h'
    refine .inr ⟨_, _, hr.deref?, hr'.deref?, ?_⟩
    constructor
    exact forall₂_join (fun t _ _ h h' => ⟨t, h, h'⟩) (Tree.allStand_iff.1 hcs) (Tree.allStand_iff.1 hcs')
  | quantified b t | group t | enclosed how t | modified on off t =>
    rw [Tree.Stands] at h h'
    obtain ⟨c, hr, hc⟩ := h
    obtain ⟨c', hr', hc'⟩ := h'
    refine .inr ⟨_, _, hr.deref?, hr'.deref?, ?_⟩
    constructor
    exact ⟨t, hc, hc'⟩
  | conditional test e yes no =>
    rw [Tree.Stands] at h h'
    obtain ⟨_, _, _, hr, he, hyes, hno⟩ := h
    obtain ⟨_, _, _, hr', he', hyes', hno'⟩ := h'
    exact .inr ⟨_, _, hr.deref?, hr'.deref?, .conditional test ⟨e, he, he'⟩ ⟨yes, hyes, hyes'⟩ ⟨no, hno, hno'⟩⟩

/-- A pattern that unfolds has no cycle below it. -/
theorem Unfolds.not_hasCycleFrom {g : Graph} {t : Tree} {r : Ref} (h : g.Unfolds t r) : ¬ g.HasCycleFrom r := by
  have hnone : ∀ r, (none : Ref) = none ∧ g.deref? r = none →
      ¬ (g.pruned fun _ => false).HasCycleFrom r := by
    rw [pruned_eq_self]
    exact fun r hr => not_hasCycleFrom_of_deref? hr.2
  have hcycle := Tree.Stands.not_hasCycleFrom hnone h fun i _ r hr => by cases hr.1
  rwa [pruned_eq_self] at hcycle

/-- A proper graph with complete raw texts and without wildcards in its sets is tidy. -/
theorem IsProper.isTidy {g : Graph} (h : g.IsProper Text.IsComplete) : g.IsTidy := by
  refine ⟨fun hn => h _ _ hn, fun hn => h _ _ hn _, fun {i s m} hn hm => ?_⟩
  obtain ⟨l, hl, hmember⟩ := (h _ _ hn).1 m hm
  rw [memberForm?, hl]
  cases l with
  | character | charClass => exact Option.some_ne_none _
  | literal | raw | wildcard | anchor | backreference | comment => exact hmember.elim

end Graph

namespace Description

/-! ### Inlining -/

/-- The expression with each reference replaced by the expression that it refers to, in parentheses, up to `k` times.
-/
def inlined (ds : List Definition) : (k : Nat) → Expr → Expr
  | 0, e => e
  | k + 1, e => substSequences (fun x =>
      match (nodeOf ds x).bind fun i => ds[i]? with
      | some d => .parens (inlined ds k d.expr)
      | none => .ref x) e

/-- The definition with what it refers to in the place of all references, as far as there are
definitions. -/
def Definition.inlined (ds : List Definition) (d : Definition) : Definition :=
  { d with expr := Description.inlined ds ds.length d.expr }

section

variable {D : Text → Prop} {ds : List Definition} {lib : Library}

theorem parens_tree {nodes : Text → Option NodeId} {e : Expr} {t : Tree}
    (h : exprTree nodes e = .ok t) (pos : Position) : (Atom.parens e).tree nodes pos = .ok (.group t) := by
  have h : choice (sequenceTrees nodes e) = .ok t := h
  rw [Atom.tree, h]
  rfl

/-- **A definition unfolds to the tree of its inlined expression.** The induction is on the length of the chains of
references. -/
theorem exists_unfolds (hlib : resolve ds = .ok lib) (hds : AreProper D ds) :
    ∀ (k : Nat) {i : NodeId} {d : Definition}, ds[i]? = some d →
      Ends (fun _ => false) ds k d.name →
      ∃ t, (∀ nodes, exprTree nodes (inlined ds k d.expr) = .ok t) ∧ t.IsProper D ∧
        lib.graph.Unfolds (.group t) (some i)
  | 0, _, _, _, h => h.elim
  | k + 1, i, d, hd, hends => by
    obtain ⟨-, hstands⟩ := exists_stands_of_resolve hlib hds
    obtain ⟨t, r, ht, hproper, hi, hr⟩ := hstands i d hd
    -- what a link of the tree leads to, by the induction hypothesis
    have hlink : ∀ j ∈ t.links fun _ => false, ∃ x e, nodeOf ds x = some j ∧ ds[j]? = some e ∧
        e.name = x ∧ Refers (fun _ => false) ds d.name x := by
      intro j hj
      obtain ⟨x, hx, hxj⟩ := exists_mem_of_forall₂ (exprTree_linked ht).flip hj
      obtain ⟨e, he, hname⟩ := exists_of_nodeOf hxj
      exact ⟨x, e, hxj, he, hname, d, mem_of_getElem? hd, rfl, hx⟩
    have hgraft : ∀ j, ∃ u, j ∈ (t.links fun _ => false) → ∀ e, ds[j]? = some e →
        (∀ nodes, exprTree nodes (inlined ds k e.expr) = .ok u) ∧ u.IsProper D ∧
        lib.graph.Unfolds (.group u) (some j) := by
      intro j
      by_cases hj : j ∈ t.links fun _ => false
      · obtain ⟨x, e, -, he, rfl, hrefers⟩ := hlink j hj
        obtain ⟨u, hu⟩ := exists_unfolds hlib hds k he (hends _ hrefers)
        refine ⟨u, fun _ e' he' => ?_⟩
        obtain rfl : e = e' := Option.some_injective _ (he.symm.trans he')
        exact hu
      · exact ⟨.absent, fun h => absurd h hj⟩
    choose u hu using hgraft
    let σ : Ref → Tree := fun r => r.elim .absent fun j => .group (u j)
    have hnone : σ none = .absent := rfl
    have hsubst : ∀ nodes, exprTree nodes (inlined ds (k + 1) d.expr) = .ok (t.graft σ) := by
      intro nodes
      refine exprTree_subst hnone ht fun x hx j hj pos => ?_
      obtain ⟨e, he, rfl⟩ := exists_of_nodeOf hj
      obtain ⟨j', hj', hxj'⟩ := exists_mem_of_forall₂ (exprTree_linked ht) (mem_refsOf.2 hx)
      obtain rfl : j' = j := Option.some_injective _ (hxj'.symm.trans hj)
      simp only [hj, Option.bind_some, he]
      exact parens_tree ((hu j' hj' e he).1 nodes) pos
    refine ⟨t.graft σ, hsubst, hproper.graft hnone fun j hj => ?_, r, ⟨i, rfl, Nat.zero_le i, hi⟩, ?_⟩
    · obtain ⟨x, e, -, he, -⟩ := hlink j hj
      exact (hu j hj e he).2.1
    · refine hr.graft ?_ fun j hj r' hr' => ?_
      · rintro _ rfl
        exact ⟨rfl, rfl⟩
      · subst hr'
        obtain ⟨x, e, -, he, -⟩ := hlink j hj
        exact (hu j hj e he).2.2

/-- An expression whose tree needs no definitions refers to none. -/
theorem refsOf_eq_nil {e : Expr} {t : Tree} (h : exprTree (fun _ => none) e = .ok t) :
    refsOf (sequenceAtoms (fun _ => false) e) = [] ∧ (t.links fun _ => false) = [] := by
  have hlinked : Linked (fun _ => none) (refsOf (sequenceAtoms (fun _ => false) e))
      (t.links fun _ => false) := exprTree_linked h
  generalize refsOf (sequenceAtoms (fun _ => false) e) = xs, (t.links fun _ => false) = is at hlinked
  cases hlinked with
  | nil => exact ⟨rfl, rfl⟩
  | cons hx _ => cases hx

/-- A definition on its own unfolds to the tree of its expression. -/
theorem exists_resolve_singleton {d : Definition} {t : Tree} (hname : d.name ∉ keywords)
    (ht : ∀ nodes, exprTree nodes d.expr = .ok t) (hproper : t.IsProper D) :
    ∃ lib, resolve [d] = .ok lib ∧ lib.patterns = [⟨d.name, d.pos, 0⟩] ∧ lib.graph.IsProper D ∧
      lib.graph.Unfolds (.group t) (some 0) := by
  have hnames : HaveNames [d] := ⟨forall_mem_singleton.2 hname, nodup_singleton _⟩
  refine ⟨_, resolve_eq_ok.2 ⟨hnames, [t], .cons (ht _) .nil, rfl⟩, rfl, ?_⟩
  obtain ⟨hgraph, hstands⟩ := planted_stands (forall_mem_singleton.2 hproper)
  obtain ⟨r, hr, hstands⟩ := hstands 0 t rfl
  refine ⟨hgraph, r, ⟨0, rfl, Nat.le_refl 0, hr⟩, ?_⟩
  refine hstands.imp ?_ fun i hi => ?_
  · rintro _ rfl
    exact ⟨rfl, rfl⟩
  · rw [(refsOf_eq_nil (ht fun _ => none)).2] at hi
    exact nomatch hi

/-- **A reference means its definition, in parentheses.** -/
theorem render_inlined (hlib : resolve ds = .ok lib)
    (hraw : ∀ d ∈ ds, ∀ t, Atom.leaf .raw t ∈ sequenceAtoms (fun _ => false) d.expr → t.IsComplete)
    (hacyclic : ∀ x, ¬ Relation.TransGen (Refers (fun _ => false) ds) x x) :
    ∀ i d, ds[i]? = some d →
      refsOf (sequenceAtoms (fun _ => false) (d.inlined ds).expr) = [] ∧
      ∃ lib', resolve [d.inlined ds] = .ok lib' ∧
        lib.patterns[i]? = some ⟨d.name, d.pos, i⟩ ∧ lib'.patterns = [⟨d.name, d.pos, 0⟩] ∧
        SameOutcome lib.graph lib'.graph (lib.graph.render (some i)) (lib'.graph.render (some 0)) := by
  intro i d hd
  obtain ⟨hnames, ts, -, hpatterns⟩ := resolve_eq_ok.1 hlib
  have hmem : d ∈ ds := mem_of_getElem? hd
  have hproper := areProper_of_raw hraw
  have hends : Ends (fun _ => false) ds ds.length d.name := by
    refine ends_of_acyclic (mem_map_of_mem hmem) (fun y z hyz => ?_) fun y _ => hacyclic y
    obtain ⟨j, hj⟩ := exists_of_refers hlib hyz
    exact mem_names_of_nodeOf hj
  obtain ⟨t, ht, htree, hunfolds⟩ := exists_unfolds hlib hproper ds.length hd hends
  obtain ⟨lib', hlib', hpatterns', hproper', hunfolds'⟩ :=
    exists_resolve_singleton (d := d.inlined ds) (hnames.notKeyword d hmem) ht htree
  refine ⟨(refsOf_eq_nil (ht _)).1, lib', hlib', ?_, hpatterns', ?_⟩
  · rw [hpatterns, getElem?_namedFrom, hd, Nat.zero_add]
    rfl
  · have hmirror := Graph.isMirror_unfolds lib.graph lib'.graph
    have hgraph := (exists_stands_of_resolve hlib hproper).1
    exact hmirror.sameOutcome <| hmirror.render_alike hgraph.isTidy hproper'.isTidy
      ⟨_, hunfolds, hunfolds'⟩ hunfolds.not_hasCycleFrom

/-- `Pair` refers to `Item` twice, before it is defined. -/
def pairSource : Text := "pattern Pair = Item+ raw(\"\\\\d\") Item; pattern Item = digit \"-\";"

/-- A raw part of a pattern does not end within an escape. -/
def Atom.isCompleteRaw : Atom → Bool
  | .leaf .raw t => Text.IsComplete t
  | _ => true

/-- `Pair` is written as it would be with both references replaced. -/
theorem render_inlined_pair : ∃ ds lib d lib', parse [] pairSource = .ok ds ∧ resolve ds = .ok lib ∧
    ds[0]? = some d ∧ resolve [d.inlined ds] = .ok lib' ∧
    SameOutcome lib.graph lib'.graph (lib.graph.render (some 0)) (lib'.graph.render (some 0)) := by
  have hfacts : ((parse [] pairSource).toOption.any fun ds => (resolve ds).toOption.isSome &&
      ds.map (fun d => (d.name, refsOf (sequenceAtoms (fun _ => false) d.expr))) =
        [(("Pair" : Text), [("Item" : Text), "Item"]), ("Item", [])] &&
      ds.all fun d => (sequenceAtoms (fun _ => false) d.expr).all Atom.isCompleteRaw) = true := by
    decide +kernel
  cases hparse : parse [] pairSource with
  | error =>
    rw [hparse] at hfacts
    cases hfacts
  | ok ds =>
    rw [hparse] at hfacts
    simp only [Except.toOption, Option.any_some, Bool.and_eq_true, decide_eq_true_eq,
      all_eq_true] at hfacts
    obtain ⟨⟨hresolve, htable⟩, hraw⟩ := hfacts
    cases hlib : resolve ds with
    | error =>
      rw [hlib] at hresolve
      cases hresolve
    | ok lib =>
      have hrefers : ∀ {x y}, Refers (fun _ => false) ds x y → x = "Pair" ∧ y = "Item" := by
        rintro x y ⟨d, hd, rfl, hy⟩
        have hrow : (d.name, refsOf (sequenceAtoms (fun _ => false) d.expr)) ∈
            [(("Pair" : Text), [("Item" : Text), "Item"]), ("Item", [])] :=
          htable ▸ mem_map_of_mem hd
        rcases mem_pair.1 hrow with h | h
        · obtain ⟨hname, hrefs⟩ := Prod.mk.inj h
          rw [hrefs, mem_pair, or_self] at hy
          exact ⟨hname, hy⟩
        · rw [(Prod.mk.inj h).2] at hy
          exact (not_mem_nil hy).elim
      have hacyclic : ∀ x, ¬ Relation.TransGen (Refers (fun _ => false) ds) x x := by
        intro x hx
        obtain ⟨y, hxy, -⟩ := Relation.TransGen.head'_iff.1 hx
        obtain ⟨z, -, hzx⟩ := Relation.TransGen.tail'_iff.1 hx
        exact absurd ((hrefers hxy).1.symm.trans (hrefers hzx).2) (by decide)
      obtain ⟨d, hd⟩ : ∃ d, ds[0]? = some d := by
        cases ds with
        | nil => cases htable
        | cons d ds => exact ⟨d, rfl⟩
      obtain ⟨-, lib', hlib', -, -, hsame⟩ := render_inlined hlib
        (fun d hd t ht => of_decide_eq_true (hraw d hd _ ht)) hacyclic 0 d hd
      exact ⟨ds, lib, d, lib', rfl, hlib, hd, hlib', hsame⟩

end

end Description
end RegexBuilder
