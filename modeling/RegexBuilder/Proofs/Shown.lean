/-
# What is shown of a pattern

A pattern *shows* the nodes that are met on a way down from it through what is written, on which no node is empty
(`Graph.Shows`). A rendering does not go down from node to node: texts are kept and written again, empty children are
passed over, and containers are left out. To show that it meets the same nodes nevertheless, one follows what its
rules write and note.

A `Marking` says which nodes are looked for, and which texts and notes give one of them away. Where it is *reliable*
(`Marking.IsReliable`), what a node writes and asks for gives away exactly the nodes that it shows
(`Node.write_notes`).
-/

import RegexBuilder.Proofs.Blankness

namespace RegexBuilder

open List Rule

/-! ### Nodes that are shown -/

/-- What a node that is not empty writes: all that it refers to, but the expression of a conditional only where that
is the condition. -/
def Node.shownRefs : Node → List Ref
  | conditional c expression yes no => if c.kind = .expression then [expression, yes, no] else [yes, no]
  | n => n.refs

/-- Node `j` is met on a way down from the pattern past no node that is empty, where `below` says what a node writes. -/
inductive Graph.Shows (g : Graph) (below : Node → List Ref) : Ref → NodeId → Prop
  | self {i : NodeId} (hi : g.isEmpty (some i) = .ok false) : Shows g below (some i) i
  | inside {i j : NodeId} {n : Node} {r : Ref} (hn : g.node? i = some n) (hi : g.isEmpty (some i) = .ok false)
      (hr : r ∈ below n) (hj : Shows g below r j) : Shows g below (some i) j

/-- Which nodes are looked for, and what gives them away. -/
structure Marking where
  /-- What a node writes. -/
  below : Node → List Ref
  /-- The nodes that are looked for. -/
  own : Node → Prop
  /-- The texts that nodes may write by themselves. -/
  admits : Text → Prop
  /-- The texts that give away that a node is looked for. -/
  tells : Text → Prop
  /-- The note of a subtraction gives it away. -/
  subtraction : Prop

namespace Marking

/-- The pattern shows a node that is looked for. -/
def IsShown (M : Marking) (g : Graph) (r : Ref) : Prop :=
  ∃ j n, g.Shows M.below r j ∧ g.node? j = some n ∧ M.own n

/-- What gives away that a node is looked for. -/
def signs (M : Marking) (g : Graph) : Signs := ⟨M.admits, M.tells, M.subtraction, M.IsShown g⟩

/-- A node may write the text, and nothing is given away by it. -/
def IsSilent (M : Marking) (t : Text) : Prop := M.admits t ∧ ¬ M.tells t

/-- The text of a leaf gives it away if it is looked for, and other texts that nodes write by themselves give away
nothing. A set is given away by its text and its note, or by what stands in its place. -/
structure IsReliable (M : Marking) (g : Graph) : Prop where
  below : ∀ {n}, (∀ s, n ≠ .set s) → M.below n = n.shownRefs
  own : ∀ {n}, M.own n → (∃ l, n = .leaf l ∧ l.isEmpty = false) ∨ ∃ s, n = .set s
  leaf : ∀ {i l t}, g.node? i = some (.leaf l) → l.form = .ok t → M.admits t ∧ (M.tells t ↔ M.own (.leaf l))
  fixed : ∀ t ∈ (["(?:", "(?(", ")", "|"] : List Text), M.IsSilent t
  suffix : ∀ b : Bounds, M.IsSilent b.suffix
  opening : ∀ {i how c}, g.node? i = some (.enclosed how c) → M.IsSilent how.opening
  options : ∀ on off c, M.IsSilent (optionsOpening g on off c)
  number : ∀ n, M.IsSilent (Text.ofInt n)
  name : ∀ {i c e yes no}, g.node? i = some (.conditional c e yes no) → c.kind = .groupName → M.IsSilent c.name
  instead : ∀ {i s ranges r}, g.node? i = some (.set s) → CharacterSet.resolveRanges g s.ranges = .ok ranges →
    s.only? ranges = some r → g.IsFilled (some i) → (M.IsShown g (some i) ↔ M.IsShown g r)
  bracket : ∀ {i s ranges subtracted t}, g.node? i = some (.set s) →
    CharacterSet.resolveRanges g s.ranges = .ok ranges →
      CharacterSet.resolveRanges g s.subtractedRanges = .ok subtracted → s.only? ranges = none →
        s.bracketed g ranges subtracted = .ok t → g.IsFilled (some i) →
          M.admits t ∧ (M.IsShown g (some i) ↔ (s.hasSubtraction = true ∧ M.subtraction) ∨ M.tells t)

variable {M : Marking} {g : Graph} {r u : Ref} {i : NodeId} {n : Node}

theorem IsShown.isFilled (h : M.IsShown g r) : g.IsFilled r := by
  obtain ⟨j, n, hj, -⟩ := h
  cases hj with
  | self hi | inside hn hi hr hj => exact Graph.isEmpty_eq_ok_iff.1 hi

theorem not_isShown_of_empty (h : g.Means .empty r true) : ¬ M.IsShown g r :=
  fun hr => nomatch h.unique hr.isFilled

/-- **What is shown is the node itself or something below it.** -/
theorem isShown_node (hn : g.node? i = some n) : M.IsShown g (some i) ↔
    g.IsFilled (some i) ∧ (M.own n ∨ ∃ r ∈ M.below n, M.IsShown g r) := by
  constructor
  · intro h
    refine ⟨h.isFilled, ?_⟩
    obtain ⟨j, m, hj, hm, hown⟩ := h
    cases hj with
    | self =>
      cases hn.symm.trans hm
      exact .inl hown
    | inside hn' hi hr hj =>
      cases hn.symm.trans hn'
      exact .inr ⟨_, hr, j, m, hj, hm, hown⟩
  · rintro ⟨hi, hown | ⟨r, hr, j, m, hj, hm, hown⟩⟩
    · exact ⟨i, n, .self (Graph.isEmpty_eq_ok_iff.2 hi), hn, hown⟩
    · exact ⟨j, m, .inside hn (Graph.isEmpty_eq_ok_iff.2 hi) hr hj, hm, hown⟩

/-- Children that are empty show nothing. -/
theorem exists_isShown_nonEmpty {cs rs : List Ref} (h : (nonEmpty cs).Finds g.Means rs) :
    (∃ r ∈ cs, M.IsShown g r) ↔ ∃ r ∈ rs, M.IsShown g r := by
  induction cs generalizing rs with
  | nil => rw [show [] = rs from h]
  | cons c cs ih =>
    obtain ⟨empty, hempty, h⟩ := finds_bind.1 h
    obtain ⟨others, hothers, h⟩ := finds_bind.1 h
    rw [finds_pure] at h
    rw [← h, exists_mem_cons_iff, ih hothers]
    cases empty with
    | true => exact or_iff_right (not_isShown_of_empty ((finds_ask (by decide)).1 hempty))
    | false => exact (exists_mem_cons_iff ..).symm

/-- A container shows what it wraps. -/
theorem exists_isShown_wraps (h : n.Wraps g r) : (∃ c ∈ n.shownRefs, M.IsShown g c) ↔ M.IsShown g r := by
  have hone : (∃ c ∈ [r], M.IsShown g c) ↔ M.IsShown g r := by simp only [mem_singleton, exists_eq_left]
  cases h with
  | concat h => exact (exists_isShown_nonEmpty h).trans hone
  | alternation | once | group => exact hone

namespace IsReliable

variable (hM : M.IsReliable g)

include hM

/-- A node that is neither a leaf nor a set shows what stands below it. -/
theorem isShown_iff_below (hn : g.node? i = some n) (hleaf : ∀ l, n ≠ .leaf l) (hset : ∀ s, n ≠ .set s)
    (hi : (∃ r ∈ n.shownRefs, M.IsShown g r) → g.IsFilled (some i)) :
    M.IsShown g (some i) ↔ ∃ r ∈ n.shownRefs, M.IsShown g r := by
  rw [isShown_node hn, hM.below hset]
  constructor
  · rintro ⟨-, hown | h⟩
    · rcases hM.own hown with ⟨l, hl, -⟩ | ⟨s, hs⟩
      · exact absurd hl (hleaf l)
      · exact absurd hs (hset s)
    · exact h
  · exact fun h => ⟨hi h, .inr h⟩

theorem isShown_leaf {l : Leaf} (hn : g.node? i = some (.leaf l)) : M.IsShown g (some i) ↔ M.own (.leaf l) := by
  rw [isShown_node hn, hM.below (n := .leaf l) fun _ h => nomatch h]
  constructor
  · rintro ⟨-, hown | ⟨r, hr, -⟩⟩
    · exact hown
    · cases hr
  · intro hown
    refine ⟨(Graph.means_node hn (by decide)).2 ?_, .inl hown⟩
    rcases hM.own hown with ⟨l', hl, hempty⟩ | ⟨s, hs⟩
    · cases hl
      exact hempty
    · cases hs

/-- **What a pattern comes down to shows the same.** -/
theorem isShown_core (h : g.Means .core r u) : g.IsClear u → (M.IsShown g r ↔ M.IsShown g u) := by
  refine Graph.core_induction (motive := fun r u => g.IsClear u → (M.IsShown g r ↔ M.IsShown g u)) ?_ ?_ ?_ h
  · intro r hr _
    exact iff_of_false (not_isShown_of_empty (Graph.means_absent hr)) (not_isShown_of_empty (Graph.means_absent rfl))
  · exact fun _ _ _ => Iff.rfl
  · intro i n r u hn hwraps hu ih hclear
    have hr := exists_isShown_wraps (M := M) hwraps
    rw [← ih hclear, ← hr]
    refine hM.isShown_iff_below hn (fun l hl => by subst hl; cases hwraps) (fun s hs => by subst hs; cases hwraps) ?_
    intro h
    have hshown := hr.1 h
    exact Graph.means_empty_of_wraps hn hwraps hu hshown.isFilled ((ih hclear).1 hshown).isFilled

end IsReliable
end Marking

/-! ### Rules -/

namespace Rule

section

variable {M : Marking} {g : Graph} {F : Prop}

/-- The rule gives away `P`. -/
abbrev NotesAlso (M : Marking) (g : Graph) (p : Rule Unit) (P F : Prop) : Prop :=
  p.Notes (M.signs g) g (fun _ F' => F' ↔ F ∨ P) F

namespace NotesAlso

variable {P P' : Prop} {p : Rule Unit}

/-- One rule after another gives away what both do. -/
theorem bind {k : Unit → Rule Unit} (hp : p.NotesAlso M g P F) (hk : ∀ a F', (k a).NotesAlso M g P' F') :
    (p >>= k).NotesAlso M g (P ∨ P') F :=
  Notes.bind hp fun a F' hF' => (hk a F').mono fun _ F'' hF'' => by rw [hF'', hF', or_assoc]

theorem congr (h : p.NotesAlso M g P F) (hP : P ↔ P') : p.NotesAlso M g P' F :=
  h.mono fun _ _ hF' => hF'.trans (or_congr_right hP)

theorem write (r : Ref) : (Rule.write r).NotesAlso M g (M.IsShown g r) F := fun _ _ => Iff.rfl

theorem pure : (pure () : Rule Unit).NotesAlso M g False F := (or_iff_left id).symm

theorem emit_tells {t : Text} (ht : M.admits t) : (Rule.emit t).NotesAlso M g (M.tells t) F := ⟨ht, Iff.rfl⟩

theorem emit {t : Text} (ht : M.IsSilent t) : (Rule.emit t).NotesAlso M g False F :=
  (emit_tells ht.1).congr (iff_false_intro ht.2)

theorem subtract : Rule.subtract.NotesAlso M g M.subtraction F := Iff.rfl

end NotesAlso
end

end Rule

section

variable {M : Marking} {g : Graph} {i : NodeId} {F P : Prop}

variable {opening : Text} {contents : Rule Unit} {r e yes no : Ref} {n : Node} {c : Condition}

/-- Between two texts. -/
theorem emit_bind_emit_notes {p : Rule Unit} (h : ∀ F', p.NotesAlso M g P F') {closing : Text}
    (hopening : M.IsSilent opening) (hclosing : M.IsSilent closing) :
    (do Rule.emit opening; p; Rule.emit closing : Rule Unit).NotesAlso M g P F := by
  refine ((NotesAlso.emit hopening).bind fun _ F' => (h F').bind fun _ _ => NotesAlso.emit hclosing).congr ?_
  rw [false_or, or_false]

/-- What is written only if node `i` is not empty. -/
theorem unlessEmpty_notes (h : g.IsFilled (some i) → contents.NotesAlso M g (M.IsShown g (some i)) F) :
    (do if ← Rule.ask .empty (some i) then return () else contents : Rule Unit).NotesAlso M g
      (M.IsShown g (some i)) F := by
  intro empty hempty
  cases empty with
  | true => exact NotesAlso.pure.congr (iff_of_false id (Marking.not_isShown_of_empty hempty))
  | false => exact h hempty

variable (hM : M.IsReliable g)

include hM

theorem writeSingle_notes (h : ∀ F', (Rule.write r).NotesAlso M g P F') : (writeSingle r).NotesAlso M g P F := by
  intro single _
  cases single with
  | true => exact h F
  | false => exact emit_bind_emit_notes h (hM.fixed _ (by decide)) (hM.fixed _ (by decide))

/-- What a pattern comes down to is written; as it is clear then, it shows what the pattern does. -/
theorem write_notes_core {u : Ref} (hu : g.Means .core r u) : (Rule.write u).NotesAlso M g (M.IsShown g r) F := by
  intro _ hclear
  rw [hM.isShown_core hu hclear]
  exact Iff.rfl

theorem writeBranch_notes (r : Ref) : (writeBranch g r).NotesAlso M g (M.IsShown g r) F := by
  intro u hu
  show (if isOpenAlternation g u then _ else Rule.write u : Rule Unit).NotesAlso M g _ F
  split
  · exact emit_bind_emit_notes (fun _ => write_notes_core hM hu) (hM.fixed _ (by decide)) (hM.fixed _ (by decide))
  · exact write_notes_core hM hu

theorem writeRest_notes : ∀ (rs : List Ref) {F : Prop},
    (writeRest g rs).NotesAlso M g (∃ r ∈ rs, M.IsShown g r) F
  | [], _ => NotesAlso.pure.congr (iff_of_false id fun ⟨_, hr, _⟩ => nomatch hr)
  | r :: rest, F => by
    rw [exists_mem_cons_iff]
    exact fun _ => (writeBranch_notes hM r).bind fun _ _ => writeRest_notes rest

theorem writeBranches_notes : ∀ (rs : List Ref) {F : Prop},
    (writeBranches rs).NotesAlso M g (∃ r ∈ rs, M.IsShown g r) F
  | [], _ => NotesAlso.pure.congr (iff_of_false id fun ⟨_, hr, _⟩ => nomatch hr)
  | r :: rest, F => by
    rw [exists_mem_cons_iff]
    have hrest := fun (_ : Unit) F' => (NotesAlso.write (F := F') r).bind fun _ _ => writeBranches_notes rest
    exact ((NotesAlso.emit (hM.fixed "|" (by decide))).bind hrest).congr (or_iff_right id)

/-- A group notes what its contents note, unless it is empty. -/
theorem writeGroup_notes (hn : g.node? i = some n) (hleaf : ∀ l, n ≠ .leaf l) (hset : ∀ s, n ≠ .set s)
    (hopening : M.IsSilent opening) (h : ∀ F', contents.NotesAlso M g (∃ r ∈ n.shownRefs, M.IsShown g r) F') :
    (writeGroup i opening contents).NotesAlso M g (M.IsShown g (some i)) F :=
  unlessEmpty_notes fun hi => (emit_bind_emit_notes h hopening (hM.fixed _ (by decide))).congr
    (hM.isShown_iff_below hn hleaf hset fun _ => hi).symm

/-- A condition notes what its expression shows. -/
theorem writeCondition_notes (hn : g.node? i = some (.conditional c e yes no)) :
    (writeCondition i c e).NotesAlso M g (c.kind = .expression ∧ M.IsShown g e) F := by
  unfold writeCondition
  split
  · next hkind =>
    rw [hkind]
    split
    · trivial
    · exact (NotesAlso.emit (hM.number _)).congr (by simp)
  · next hkind =>
    rw [hkind]
    split
    · trivial
    · exact (NotesAlso.emit (hM.name hn hkind)).congr (by simp)
  · next hkind =>
    intro empty _
    cases empty with
    | true => trivial
    | false => exact (NotesAlso.write e).congr (iff_and_self.2 fun _ => hkind)
  · trivial

theorem writeConditional_notes (hn : g.node? i = some (.conditional c e yes no)) :
    (writeConditional g i c e yes no).NotesAlso M g
      (∃ r ∈ (Node.conditional c e yes no).shownRefs, M.IsShown g r) F := by
  have hotherwise : ∀ {F'}, (do
      if ← Rule.ask .empty no then return ()
      else
        Rule.emit "|"
        writeBranch g no : Rule Unit).NotesAlso M g (M.IsShown g no) F' := by
    intro F' empty hempty
    cases empty with
    | true => exact NotesAlso.pure.congr (iff_of_false id (Marking.not_isShown_of_empty hempty))
    | false =>
      have hbar : M.IsSilent "|" := hM.fixed _ (by decide)
      exact ((NotesAlso.emit hbar).bind fun _ _ => writeBranch_notes hM no).congr (or_iff_right id)
  have hclose : M.IsSilent ")" := hM.fixed _ (by decide)
  refine ((writeCondition_notes hM hn).bind fun _ _ => (NotesAlso.emit hclose).bind fun _ _ =>
    (writeBranch_notes hM yes).bind fun _ _ => hotherwise).congr ?_
  rw [Node.shownRefs]
  split
  · next hkind => simp [hkind]
  · next hkind => simp [hkind]

theorem writeQuantified_notes {b : Bounds} {c : Ref} (hn : g.node? i = some (.quantified b c)) :
    (writeQuantified g i b c).NotesAlso M g (M.IsShown g (some i)) F := by
  refine unlessEmpty_notes fun hi => ?_
  intro u hu
  have hnode : M.IsShown g (some i) ↔ M.IsShown g c :=
    (hM.isShown_iff_below hn nofun (fun _ h => nomatch h) fun _ => hi).trans (by simp [Node.shownRefs, Node.refs])
  show (writeRepeated g i b u).NotesAlso M g _ F
  unfold writeRepeated
  split
  · trivial
  · trivial
  · split
    · exact (write_notes_core hM hu).congr hnode.symm
    · have hwrite := fun F' => write_notes_core (F := F') hM hu
      refine ((writeSingle_notes hM hwrite).bind fun _ _ => NotesAlso.emit (hM.suffix b)).congr ?_
      rw [or_false, hnode]

/-- A set notes what it shows. -/
theorem writeSet_notes {s : CharacterSet Ref} (hn : g.node? i = some (.set s)) :
    (writeSet g i s).NotesAlso M g (M.IsShown g (some i)) F := by
  have hempty : g.Means .empty (some i) (!s.hasBase && !s.hasSubtraction) := (Graph.means_node hn (by decide)).2 rfl
  unfold writeSet
  cases hbase : s.hasBase with
  | false =>
    rw [hbase] at hempty
    simp only [Bool.not_false, if_true]
    cases hsub : s.hasSubtraction with
    | true => trivial
    | false =>
      rw [hsub] at hempty
      exact NotesAlso.pure.congr (iff_of_false id (Marking.not_isShown_of_empty hempty))
  | true =>
    rw [hbase] at hempty
    simp only [Bool.not_true, Bool.false_eq_true, if_false]
    refine Notes.ofResult.bind ?_
    rintro ranges _ ⟨hranges, rfl⟩
    refine Notes.ofResult.bind ?_
    rintro subtracted _ ⟨hsubtracted, rfl⟩
    split
    · next r hr => exact (NotesAlso.write r).congr (hM.instead hn hranges hr hempty).symm
    · next hnone =>
      refine Notes.ofResult.bind ?_
      rintro t _ ⟨ht, rfl⟩
      obtain ⟨hadmits, hiff⟩ := hM.bracket hn hranges hsubtracted hnone ht hempty
      split
      · next hsub =>
        refine (NotesAlso.subtract.bind fun _ _ => NotesAlso.emit_tells hadmits).congr ?_
        rw [hiff, and_iff_right hsub]
      · next hsub =>
        refine (NotesAlso.emit_tells hadmits).congr ?_
        rw [hiff, or_iff_right fun h : _ ∧ _ => hsub h.1]

omit hM in
/-- An alternation is not empty if a branch is not. -/
theorem Graph.isFilled_of_branch {cs : List Ref} (hn : g.node? i = some (.alternation cs)) (hr : r ∈ cs)
    (h : g.IsFilled r) : g.IsFilled (some i) := by
  refine (means_node hn (by decide)).2 ?_
  cases cs with
  | nil => cases hr
  | cons c rest =>
    cases rest with
    | nil =>
      cases mem_singleton.1 hr
      exact (finds_ask (by decide)).2 h
    | cons => rfl

/-- **What a node writes gives away what it shows.** -/
theorem Node.write_notes (hn : g.node? i = some n) : (n.write g i).NotesAlso M g (M.IsShown g (some i)) F := by
  have hchild : ∀ {c}, (∃ r ∈ [c], M.IsShown g r) ↔ M.IsShown g c := by
    simp only [mem_singleton, exists_eq_left, implies_true]
  cases n with
  | leaf =>
    refine Notes.ofResult.bind ?_
    rintro t _ ⟨ht, rfl⟩
    obtain ⟨hadmits, htells⟩ := hM.leaf hn ht
    exact (NotesAlso.emit_tells hadmits).congr (htells.trans (hM.isShown_leaf hn).symm)
  | set => exact writeSet_notes hM hn
  | concat cs =>
    have hfollows : (nonEmpty cs).Follows g i .empty fun rs => ∀ r ∈ rs, g.Below i r :=
      nonEmpty_follows fun r hr => Graph.below_of_mem_refs hn hr
    refine (hfollows.notes (by decide) F).bind ?_
    rintro rs _ ⟨hrs, rfl⟩
    have hnode : M.IsShown g (some i) ↔ ∃ r ∈ rs, M.IsShown g r := by
      rw [← Marking.exists_isShown_nonEmpty hrs]
      refine hM.isShown_iff_below hn nofun (fun _ h => nomatch h) fun h => ?_
      obtain ⟨r, hr, -⟩ := (Marking.exists_isShown_nonEmpty hrs).1 h
      refine (Graph.means_node hn (by decide)).2 (finds_bind.2 ⟨rs, hrs, ?_⟩)
      exact isEmpty_eq_false_iff_exists_mem.2 ⟨r, hr⟩
    rw [hnode]
    match rs with
    | [] => exact NotesAlso.pure.congr (by simp)
    | [r] => exact (NotesAlso.write r).congr (by simp)
    | r :: r' :: rest =>
      rw [exists_mem_cons_iff]
      exact (writeBranch_notes hM r).bind fun _ _ => writeRest_notes hM _
  | alternation cs =>
    match cs with
    | [] =>
      refine NotesAlso.pure.congr (iff_of_false id (Marking.not_isShown_of_empty ?_))
      exact (Graph.means_node hn (by decide)).2 rfl
    | r :: rest =>
      rw [hM.isShown_iff_below hn nofun (fun _ h => nomatch h) fun ⟨r, hr, h⟩ =>
        Graph.isFilled_of_branch hn hr h.isFilled]
      show Rule.NotesAlso M g _ (∃ c ∈ r :: rest, M.IsShown g c) F
      rw [exists_mem_cons_iff]
      exact (NotesAlso.write r).bind fun _ _ => writeBranches_notes hM rest
  | quantified => exact writeQuantified_notes hM hn
  | group c =>
    have hnode := hM.isShown_iff_below hn nofun (fun _ h => nomatch h) fun h =>
      (Graph.means_node hn (by decide)).2 ((finds_ask (by decide)).2 (hchild.1 h).isFilled)
    exact (NotesAlso.write c).congr (hnode.trans hchild).symm
  | enclosed how c =>
    exact writeGroup_notes hM hn nofun (fun _ h => nomatch h) (hM.opening hn) fun _ =>
      (NotesAlso.write c).congr hchild.symm
  | conditional =>
    exact writeGroup_notes hM hn nofun (fun _ h => nomatch h) (hM.fixed _ (by decide)) fun _ =>
      writeConditional_notes hM hn
  | modified on off c =>
    refine writeGroup_notes hM hn nofun (fun _ h => nomatch h) (hM.options on off c) fun _ => ?_
    split
    · exact (NotesAlso.write c).congr hchild.symm
    · trivial

/-- What a node answers gives away what it shows, if it is asked for its text. -/
theorem Node.rule_notes (hn : g.node? i = some n) (q : Question) (F : Prop) :
    (n.rule g i q).Notes (M.signs g) g (fun _ F' => F' ↔ q.Notes (M.signs g) (some i) F) F := by
  have hquiet : ∀ {q : Question}, q ≠ .text → (n.rule g i q).Notes (M.signs g) g (fun _ F' => F' ↔ F) F := fun hq =>
    ((rule_follows hn _).notes hq F).mono fun _ _ h => h.2 ▸ Iff.rfl
  cases q with
  | text => exact Notes.bind (write_notes hM hn) fun _ _ h _ => h
  | core | empty | single => exact hquiet (by decide)

end

end RegexBuilder
