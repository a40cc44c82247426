/-
# What a copy is made of

`Node.copy` puts copies in the place of what a node refers to, and `Graph.copyLevel` adds the result as a new node.
What follows is said of any way `copy` to make those copies, so that facts about `Graph.copying` need an induction
on the depth and nothing about the kinds of nodes.
-/

import RegexBuilder.Pattern.Copy
import RegexBuilder.Pattern.Occurrence
import RegexBuilder.Proofs.Outcome

namespace RegexBuilder

open List

namespace Graph

/-- A reference is to nothing or to a node. -/
theorem absent_or_node (g : Graph) (r : Ref) : g.deref? r = none ∨ ∃ i n, r = some i ∧ g.node? i = some n := by
  cases hr : g.deref? r with
  | none => exact .inl rfl
  | some n =>
    obtain ⟨i, hi, hn⟩ := Option.bind_eq_some_iff.1 hr
    exact .inr ⟨i, n, hi, hn⟩

/-- The graph `g'` has all nodes of `g`, with the same numbers. -/
def Extends (g g' : Graph) : Prop := ∀ i n, g.node? i = some n → g'.node? i = some n

/-- A graph has its own nodes. -/
theorem Extends.refl (g : Graph) : g.Extends g := fun _ _ h => h

theorem Extends.trans {a b c : Graph} (h : a.Extends b) (h' : b.Extends c) : a.Extends c :=
  fun i n hn => h' i n (h i n hn)

/-- A node is added at the end. -/
theorem extends_add (g : Graph) (n : Node) : g.Extends (g.add n).2 := by
  intro i m h
  have hi : i < g.nodes.size := (Array.getElem?_eq_some_iff.1 h).1
  simpa [add, node?, Array.getElem?_push, Nat.ne_of_lt hi] using h

theorem node?_add (g : Graph) (n : Node) : (g.add n).2.node? (g.add n).1 = some n := by
  simp [add, node?]

end Graph

/-! ### Nodes that differ in their references -/

/-- The endpoints are related by `R`. -/
def Range.Alike {α β : Type} (R : α → β → Prop) (r : Range α) (r' : Range β) : Prop :=
  R r.first r'.first ∧ R r.last r'.last

/-- The sets differ in their endpoints and members only, and these are related by `R`. -/
structure CharacterSet.Alike {α β : Type} (R : α → β → Prop) (s : CharacterSet α)
    (s' : CharacterSet β) : Prop where
  ranges : Forall₂ (Range.Alike R) s.ranges s'.ranges
  members : Forall₂ R s.members s'.members
  subtractedRanges : Forall₂ (Range.Alike R) s.subtractedRanges s'.subtractedRanges
  subtractedMembers : Forall₂ R s.subtractedMembers s'.subtractedMembers
  negated : s.negated = s'.negated

/-- The nodes differ in their references only, and these are related by `R`. -/
inductive Node.Alike (R : Ref → Ref → Prop) : Node → Node → Prop where
  | leaf (l : Leaf) : Alike R (leaf l) (leaf l)
  | set {s s' : CharacterSet Ref} : s.Alike R s' → Alike R (set s) (set s')
  | concat {cs cs' : List Ref} : Forall₂ R cs cs' → Alike R (concat cs) (concat cs')
  | alternation {cs cs' : List Ref} :
    Forall₂ R cs cs' → Alike R (alternation cs) (alternation cs')
  | quantified (b : Bounds) {c c' : Ref} : R c c' → Alike R (quantified b c) (quantified b c')
  | group {c c' : Ref} : R c c' → Alike R (group c) (group c')
  | enclosed (how : Enclosure) {c c' : Ref} : R c c' → Alike R (enclosed how c) (enclosed how c')
  | conditional (t : Condition) {e e' yes yes' no no' : Ref} : R e e' → R yes yes' → R no no' →
    Alike R (conditional t e yes no) (conditional t e' yes' no')
  | modified (on off : Options) {c c' : Ref} :
    R c c' → Alike R (modified on off c) (modified on off c')

/-- Related in a weaker way. -/
theorem CharacterSet.Alike.mono {α β : Type} {R R' : α → β → Prop} (hR : ∀ r r', R r r' → R' r r')
    {s : CharacterSet α} {s' : CharacterSet β} (h : s.Alike R s') : s.Alike R' s' :=
  ⟨h.ranges.imp fun _ _ h => ⟨hR _ _ h.1, hR _ _ h.2⟩, h.members.imp hR,
    h.subtractedRanges.imp fun _ _ h => ⟨hR _ _ h.1, hR _ _ h.2⟩, h.subtractedMembers.imp hR, h.negated⟩

variable {R : Ref → Ref → Prop} {n n' : Node}

/-- Related in a weaker way. -/
theorem Node.Alike.mono {R' : Ref → Ref → Prop} (hR : ∀ r r', R r r' → R' r r') (h : n.Alike R n') : n.Alike R' n' := by
  cases h with
  | leaf l => exact .leaf l
  | set h => exact .set (h.mono hR)
  | concat h => exact .concat (h.imp hR)
  | alternation h => exact .alternation (h.imp hR)
  | quantified b h => exact .quantified b (hR _ _ h)
  | group h => exact .group (hR _ _ h)
  | enclosed how h => exact .enclosed how (hR _ _ h)
  | conditional t he hyes hno => exact .conditional t (hR _ _ he) (hR _ _ hyes) (hR _ _ hno)
  | modified on off h => exact .modified on off (hR _ _ h)

/-- A node is alike to itself if its references are related to themselves. -/
theorem Node.Alike.refl (h : ∀ r ∈ n.refs, R r r) : n.Alike R n := by
  cases n with
  | leaf l => exact .leaf l
  | set =>
    have hrange : ∀ {r : Range Ref} {rs : List (Range Ref)}, r ∈ rs →
        (∀ c ∈ rs.flatMap fun r => [r.first, r.last], R c c) → r.Alike R r := fun hr hrs =>
      ⟨hrs _ (mem_flatMap.2 ⟨_, hr, by simp⟩), hrs _ (mem_flatMap.2 ⟨_, hr, by simp⟩)⟩
    simp only [refs, CharacterSet.refs, forall_mem_append] at h
    obtain ⟨⟨⟨hranges, hmembers⟩, hsubtracted⟩, hsubtractedMembers⟩ := h
    exact .set ⟨forall₂_same.2 fun r hr => hrange hr hranges, forall₂_same.2 hmembers,
      forall₂_same.2 fun r hr => hrange hr hsubtracted, forall₂_same.2 hsubtractedMembers, rfl⟩
  | concat | alternation =>
    constructor
    exact forall₂_same.2 h
  | quantified b c | group c | enclosed how c | modified on off c =>
    constructor
    exact h c (mem_singleton.2 rfl)
  | conditional t e yes no =>
    simp only [refs, forall_mem_cons] at h
    exact .conditional t h.1 h.2.1 h.2.2.1

/-- Nodes with the same references are the same. -/
theorem Node.Alike.eq (h : n.Alike Eq n') : n = n' := by
  have hranges : ∀ {rs rs' : List (Range Ref)}, Forall₂ (Range.Alike Eq) rs rs' → rs = rs' := fun h =>
    forall₂_eq_eq_eq ▸ h.imp fun _ _ ⟨hfirst, hlast⟩ => congrArg₂ Range.mk hfirst hlast
  cases h with
  | leaf => rfl
  | set h =>
    exact congrArg Node.set ((CharacterSet.mk.injEq ..).mpr ⟨hranges h.ranges, forall₂_eq_eq_eq ▸ h.members,
      hranges h.subtractedRanges, forall₂_eq_eq_eq ▸ h.subtractedMembers, h.negated⟩)
  | concat h | alternation h =>
    rw [forall₂_eq_eq_eq] at h
    rw [h]
  | quantified _ h | group h | enclosed _ h | modified _ _ h => rw [h]
  | conditional _ he hyes hno => rw [he, hyes, hno]

/-- What stands in the one set is related to what stands in the other, one by one. -/
theorem CharacterSet.Alike.forall₂_refs {α β : Type} {R : α → β → Prop} {s : CharacterSet α} {s' : CharacterSet β}
    (h : s.Alike R s') : Forall₂ R s.refs s'.refs := by
  have hranges : ∀ {rs rs'}, Forall₂ (Range.Alike R) rs rs' →
      Forall₂ R (rs.flatMap fun r => [r.first, r.last]) (rs'.flatMap fun r => [r.first, r.last]) := by
    intro rs rs' h
    induction h with
    | nil => exact .nil
    | cons hr _ ih => exact .cons hr.1 (.cons hr.2 ih)
  have hincluded := rel_append (hranges h.ranges) h.members
  exact rel_append (rel_append hincluded (hranges h.subtractedRanges)) h.subtractedMembers

/-- The references of the one node are related to those of the other, one by one. -/
theorem Node.Alike.forall₂_refs (h : n.Alike R n') : Forall₂ R n.refs n'.refs := by
  cases h with
  | leaf => exact .nil
  | set h => exact h.forall₂_refs
  | concat h | alternation h => exact h
  | quantified b h | group h | enclosed how h | modified on off h => exact .cons h .nil
  | conditional t he hyes hno => exact .cons he (.cons hyes (.cons hno .nil))

/-- Every reference of the one node has its counterpart in the other. -/
theorem Node.Alike.exists_of_mem_refs (h : n.Alike R n') {r : Ref} (hr : r ∈ n.refs) : ∃ r', R r r' := by
  obtain ⟨r', -, hrr'⟩ := exists_mem_of_forall₂ h.forall₂_refs hr
  exact ⟨r', hrr'⟩

/-! ### Failures -/

/-- No member and no endpoint of a set is missing. -/
def Node.IsWhole (g : Graph) : Node → Prop
  | .set s => (∀ m ∈ s.members ++ s.subtractedMembers, g.deref? m ≠ none) ∧
      ∀ r ∈ s.ranges ++ s.subtractedRanges, g.character? r.first ≠ none ∧ g.character? r.last ≠ none
  | _ => True

section

variable {g : Graph} {copy : Ref → Growing Ref} {P : Graph → Prop} {E : Failure → Prop}

theorem Growing.add_ensures {n : Node} (hadd : ∀ g, P g → P (g.add n).2) :
    Ensures P (Growing.add n) (fun _ => P) E := by
  refine fun s hs => ⟨fun x s' h => ?_, fun f h => ?_⟩
  · cases h
    exact hadd s hs
  · cases h

theorem copyEndpoint_ensures (hadd : ∀ g c, P g → P (g.add (.leaf (.character c))).2) {r : Ref}
    (h : g.character? r = none → E (.broken .endpoint)) : Ensures P (copyEndpoint g r) (fun _ => P) E := by
  unfold copyEndpoint
  cases hr : g.character? r with
  | none => exact .throw (h hr)
  | some c => exact Growing.add_ensures fun g => hadd g c

theorem copyRange_ensures (hadd : ∀ g c, P g → P (g.add (.leaf (.character c))).2) {r : Range Ref}
    (h : (g.character? r.first = none ∨ g.character? r.last = none) → E (.broken .endpoint)) :
    Ensures P (copyRange (copyEndpoint g) r) (fun _ => P) E := by
  refine (copyEndpoint_ensures hadd fun hr => h (.inl hr)).bind fun _ => ?_
  refine (copyEndpoint_ensures hadd fun hr => h (.inr hr)).bind fun _ => ?_
  exact .pure fun _ hs => hs

theorem copyMember_ensures {r : Ref} (hcopy : Ensures P (copy r) (fun y s => P s ∧ (g.deref? r ≠ none → y ≠ none)) E)
    (h : g.deref? r = none → E (.broken .member)) : Ensures P (copyMember copy r) (fun _ => P) E := by
  refine hcopy.bind fun y => ?_
  cases y with
  | none =>
    intro s hs
    have hr : g.deref? r = none := by_contra fun hr => hs.2 hr rfl
    exact (Ensures.throw (h hr) : Ensures P _ _ E) s hs.1
  | some => exact .pure fun _ hs => hs.1

/-- **Where a copy of a node can fail:** in a copy of one of its references, or at what a set that
is not whole lacks. -/
theorem Node.copy_ensures (hadd : ∀ g c, P g → P (g.add (.leaf (.character c))).2) {n : Node}
    (hcopy : ∀ r ∈ n.refs, Ensures P (copy r) (fun y s => P s ∧ (g.deref? r ≠ none → y ≠ none)) E)
    (hE : ¬ n.IsWhole g → E (.broken .member) ∧ E (.broken .endpoint)) :
    Ensures P (n.copy (copyEndpoint g) copy) (fun _ => P) E := by
  have hc : ∀ r ∈ n.refs, Ensures P (copy r) (fun _ => P) E := fun r hr =>
    (hcopy r hr).mono (fun _ h => h) (fun _ _ h => h.1) fun _ h => h
  cases n with
  | leaf => exact .pure fun _ hs => hs
  | set s =>
    have hmember : ∀ m ∈ s.members ++ s.subtractedMembers, Ensures P (copyMember copy m) (fun _ => P) E := fun m hm =>
      copyMember_ensures (hcopy m (by simp [Node.refs, CharacterSet.refs] at hm ⊢; tauto))
        fun h => (hE fun hw => hw.1 m hm h).1
    have hrange : ∀ r ∈ s.ranges ++ s.subtractedRanges,
        Ensures P (copyRange (copyEndpoint g) r) (fun _ => P) E := fun r hr =>
      copyRange_ensures hadd fun h => (hE fun hw => h.elim (hw.2 r hr).1 (hw.2 r hr).2).2
    refine (Ensures.mapM fun m hm => hmember m (mem_append_left _ hm)).bind fun _ => ?_
    refine (Ensures.mapM fun m hm => hmember m (mem_append_right _ hm)).bind fun _ => ?_
    refine (Ensures.mapM fun r hr => hrange r (mem_append_left _ hr)).bind fun _ => ?_
    refine (Ensures.mapM fun r hr => hrange r (mem_append_right _ hr)).bind fun _ => ?_
    exact .pure fun _ hs => hs
  | concat | alternation => exact (Ensures.mapM hc).bind fun _ => .pure fun _ hs => hs
  | quantified b c | group c | enclosed how c | modified on off c =>
    exact (hc c (by simp [Node.refs])).bind fun _ => .pure fun _ hs => hs
  | conditional t e yes no =>
    refine (hc e (by simp [Node.refs])).bind fun _ => ?_
    refine (hc yes (by simp [Node.refs])).bind fun _ => ?_
    exact (hc no (by simp [Node.refs])).bind fun _ => .pure fun _ hs => hs

end

/-! ### Successes -/

theorem copyEndpoint_eq_ok {g s s' : Graph} {r r' : Ref} (h : copyEndpoint g r s = .ok (r', s')) :
    ∃ c, g.character? r = some c ∧ r' = some (s.add (.leaf (.character c))).1 ∧
      s' = (s.add (.leaf (.character c))).2 := by
  unfold copyEndpoint at h
  cases hr : g.character? r with
  | none =>
    rw [hr] at h
    cases h
  | some c =>
    rw [hr] at h
    cases h
    exact ⟨c, rfl, rfl, rfl⟩

section

variable {σ : Type} {endpoint copy : Ref → StateT σ (Except Failure) Ref} {s s' : σ} {r r' : Ref} {rs rs' : List Ref}

theorem copy_eq_ok_of_copyMember (h : copyMember copy r s = .ok (r', s')) : copy r s = .ok (r', s') := by
  obtain ⟨y, s₁, hy, h⟩ := run_bind_eq_ok.1 h
  cases y with
  | none => cases h
  | some =>
    cases h
    exact hy

/-- How states grow while copies are made. -/
structure IsGrowth (le : σ → σ → Prop) (endpoint copy : Ref → StateT σ (Except Failure) Ref) : Prop where
  refl : ∀ s, le s s
  trans : ∀ {a b c}, le a b → le b c → le a c
  endpoint : ∀ {r s r' s'}, endpoint r s = .ok (r', s') → le s s'
  copy : ∀ {r s r' s'}, copy r s = .ok (r', s') → le s s'

variable {le : σ → σ → Prop}

/-- Between the states `s` and `s'`, `r'` was made as a copy of `r`: by `copy`, or as an endpoint. -/
def Made (le : σ → σ → Prop) (endpoint copy : Ref → StateT σ (Except Failure) Ref) (s s' : σ) (r r' : Ref) : Prop :=
  ∃ s₁ s₂, le s s₁ ∧ (copy r s₁ = .ok (r', s₂) ∨ endpoint r s₁ = .ok (r', s₂)) ∧ le s₂ s'

variable (hle : IsGrowth le endpoint copy)

include hle

theorem Made.mono {s₀ s₁ : σ} (h₀ : le s₀ s) (h₁ : le s' s₁) (h : Made le endpoint copy s s' r r') :
    Made le endpoint copy s₀ s₁ r r' := by
  obtain ⟨t, t', ht, h, ht'⟩ := h
  exact ⟨t, t', hle.trans h₀ ht, h, hle.trans ht' h₁⟩

theorem made_of_eq_ok (h : copy r s = .ok (r', s')) : le s s' ∧ Made le endpoint copy s s' r r' :=
  ⟨hle.copy h, s, s', hle.refl s, .inl h, hle.refl s'⟩

theorem made_of_mapM_eq_ok {f : Ref → StateT σ (Except Failure) Ref}
    (hf : ∀ {r s r' s'}, f r s = .ok (r', s') → copy r s = .ok (r', s')) (h : rs.mapM f s = .ok (rs', s')) :
    le s s' ∧ Forall₂ (Made le endpoint copy s s') rs rs' := by
  obtain ⟨hs, hrs⟩ := mapM_eq_ok hle.refl hle.trans (fun r _ s y s' hy => hle.copy (hf hy)) h
  refine ⟨hs, hrs.imp ?_⟩
  rintro r r' ⟨s₁, s₂, h₁, h, h₂⟩
  exact ⟨s₁, s₂, h₁, .inl (hf h), h₂⟩

theorem made_of_copyRange_eq_ok {r r' : Range Ref} (h : copyRange endpoint r s = .ok (r', s')) :
    le s s' ∧ Range.Alike (Made le endpoint copy s s') r r' := by
  obtain ⟨a, s₁, ha, h⟩ := run_bind_eq_ok.1 h
  obtain ⟨b, s₂, hb, h⟩ := run_bind_eq_ok.1 h
  cases h
  have h₁ := hle.endpoint ha
  have h₂ := hle.endpoint hb
  exact ⟨hle.trans h₁ h₂, ⟨s, s₁, hle.refl s, .inr ha, h₂⟩, ⟨s₁, s', h₁, .inr hb, hle.refl s'⟩⟩

theorem made_of_mapM_copyRange_eq_ok {rs rs' : List (Range Ref)} (h : rs.mapM (copyRange endpoint) s = .ok (rs', s')) :
    le s s' ∧ Forall₂ (Range.Alike (Made le endpoint copy s s')) rs rs' := by
  obtain ⟨hs, hrs⟩ := mapM_eq_ok hle.refl hle.trans (fun r _ s y s' hy => (made_of_copyRange_eq_ok hle hy).1) h
  refine ⟨hs, hrs.imp ?_⟩
  rintro r r' ⟨s₁, s₂, h₁, h, h₂⟩
  obtain ⟨-, hfirst, hlast⟩ := made_of_copyRange_eq_ok hle h
  exact ⟨hfirst.mono hle h₁ h₂, hlast.mono hle h₁ h₂⟩

/-- **What a copy of a node consists of:** the same node, with copies in the place of what it refers
to. -/
theorem Node.alike_of_copy_eq_ok {n n' : Node} (h : n.copy endpoint copy s = .ok (n', s')) :
    le s s' ∧ n.Alike (Made le endpoint copy s s') n' := by
  cases n with
  | leaf l =>
    cases h
    exact ⟨hle.refl s, .leaf l⟩
  | set =>
    obtain ⟨members, s₁, h₁, h⟩ := run_bind_eq_ok.1 h
    obtain ⟨subtractedMembers, s₂, h₂, h⟩ := run_bind_eq_ok.1 h
    obtain ⟨ranges, s₃, h₃, h⟩ := run_bind_eq_ok.1 h
    obtain ⟨subtractedRanges, s₄, h₄, h⟩ := run_bind_eq_ok.1 h
    cases h
    obtain ⟨e₁, f₁⟩ := made_of_mapM_eq_ok hle copy_eq_ok_of_copyMember h₁
    obtain ⟨e₂, f₂⟩ := made_of_mapM_eq_ok hle copy_eq_ok_of_copyMember h₂
    obtain ⟨e₃, f₃⟩ := made_of_mapM_copyRange_eq_ok hle h₃
    obtain ⟨e₄, f₄⟩ := made_of_mapM_copyRange_eq_ok hle h₄
    have e₁₂ := hle.trans e₁ e₂
    have e₃₄ := hle.trans e₃ e₄
    refine ⟨hle.trans e₁₂ e₃₄, .set ⟨?_, ?_, ?_, ?_, rfl⟩⟩
    · exact f₃.imp fun _ _ h => ⟨h.1.mono hle e₁₂ e₄, h.2.mono hle e₁₂ e₄⟩
    · exact f₁.imp fun _ _ => .mono hle (hle.refl s) (hle.trans e₂ e₃₄)
    · have e₁₃ := hle.trans e₁₂ e₃
      exact f₄.imp fun _ _ h => ⟨h.1.mono hle e₁₃ (hle.refl _), h.2.mono hle e₁₃ (hle.refl _)⟩
    · exact f₂.imp fun _ _ => .mono hle e₁ e₃₄
  | concat | alternation =>
    obtain ⟨cs', s₁, h₁, h⟩ := run_bind_eq_ok.1 h
    cases h
    exact (made_of_mapM_eq_ok hle id h₁).imp id fun hcs => by constructor; exact hcs
  | quantified | group | enclosed | modified =>
    obtain ⟨c', s₁, h₁, h⟩ := run_bind_eq_ok.1 h
    cases h
    exact (made_of_eq_ok hle h₁).imp id fun hc => by constructor; exact hc
  | conditional t e yes no =>
    obtain ⟨e', s₁, h₁, h⟩ := run_bind_eq_ok.1 h
    obtain ⟨yes', s₂, h₂, h⟩ := run_bind_eq_ok.1 h
    obtain ⟨no', s₃, h₃, h⟩ := run_bind_eq_ok.1 h
    cases h
    obtain ⟨e₁, f₁⟩ := made_of_eq_ok hle h₁
    obtain ⟨e₂, f₂⟩ := made_of_eq_ok hle h₂
    obtain ⟨e₃, f₃⟩ := made_of_eq_ok hle h₃
    have e₂₃ := hle.trans e₂ e₃
    exact ⟨hle.trans e₁ e₂₃, .conditional t (f₁.mono hle (hle.refl s) e₂₃) (f₂.mono hle e₁ e₃)
      (f₃.mono hle (hle.trans e₁ e₂) (hle.refl _))⟩

end

/-! ### One level of a copy -/

namespace Graph

variable {g : Graph} {deeper : List NodeId → Ref → Growing Ref} {o : List NodeId}

theorem copyLevel_absent {r : Ref} (h : g.deref? r = none) (s : Graph) : g.copyLevel deeper o r s = .ok (none, s) := by
  cases r with
  | none => rfl
  | some i =>
    have hi : g.node? i = none := h
    simp only [copyLevel, hi]
    rfl

variable {i : NodeId} {n : Node}

/-- A node that is being copied is not copied again. -/
theorem copyLevel_open (hn : g.node? i = some n) (hi : i ∈ o) (s : Graph) :
    g.copyLevel deeper o (some i) s = .error (.recursion .copy (o ++ [i])) := by
  simp only [copyLevel, hn, if_pos hi]
  rfl

/-- Any other node is added anew, with copies of what it refers to. -/
theorem copyLevel_new (hn : g.node? i = some n) (hi : i ∉ o) :
    g.copyLevel deeper o (some i) = n.copy (copyEndpoint g) (deeper (o ++ [i])) >>= Growing.add := by
  simp only [copyLevel, hn, if_neg hi]

/-- Copies only add nodes. -/
theorem isGrowth_extends {copy : Ref → Growing Ref} (hcopy : ∀ r s r' s', copy r s = .ok (r', s') → s.Extends s') :
    IsGrowth Extends (copyEndpoint g) copy where
  refl := .refl
  trans := .trans
  endpoint h := by
    obtain ⟨c, -, -, rfl⟩ := copyEndpoint_eq_ok h
    exact extends_add _ _
  copy h := hcopy _ _ _ _ h

/-- A level of a copy that succeeds adds a node, with copies of what the old one refers to. -/
theorem alike_of_copyLevel_eq_ok
    (hdeeper : ∀ o r s r' s', deeper o r s = .ok (r', s') → s.Extends s') (hn : g.node? i = some n)
    {r' : Ref} {s s' : Graph} (h : g.copyLevel deeper o (some i) s = .ok (r', s')) :
    s.Extends s' ∧ ∃ i' n', r' = some i' ∧ s'.node? i' = some n' ∧
      n.Alike (Made Extends (copyEndpoint g) (deeper (o ++ [i])) s s') n' := by
  by_cases hi : i ∈ o
  · rw [copyLevel_open hn hi] at h
    cases h
  · rw [copyLevel_new hn hi] at h
    obtain ⟨n', s₁, hn', h⟩ := run_bind_eq_ok.1 h
    cases h
    have hgrowth := isGrowth_extends (g := g) (hdeeper (o ++ [i]))
    obtain ⟨hs, halike⟩ := Node.alike_of_copy_eq_ok hgrowth hn'
    refine ⟨hs.trans (s₁.extends_add n'), _, n', rfl, s₁.node?_add n', ?_⟩
    exact halike.mono fun _ _ h => h.mono hgrowth (.refl s) (s₁.extends_add n')

/-- Existing nodes stay as they are. -/
theorem extends_of_copying_eq_ok : ∀ (d : Nat) (o : List NodeId) (r : Ref) (s : Graph) (r' : Ref)
    (s' : Graph), g.copying d o r s = .ok (r', s') → s.Extends s'
  | 0, _, _, _, _, _, h => nomatch h
  | d + 1, o, r, s, r', s', h => by
    rw [copying] at h
    rcases g.absent_or_node r with hr | ⟨i, n, rfl, hn⟩
    · rw [copyLevel_absent hr] at h
      cases h
      exact .refl s
    · exact (alike_of_copyLevel_eq_ok (extends_of_copying_eq_ok d) hn h).1

end Graph
end RegexBuilder
