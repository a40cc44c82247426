/-
# Patterns that are not disturbed

A *region* is a set of nodes that refer to nodes of the region only. Where two graphs have the same nodes in a
region, every pattern of it has the same answers and failures in both, and a copy in both or in neither
(`Graph.IsRegion.undisturbed`).
-/

import RegexBuilder.Proofs.Planting
import RegexBuilder.Proofs.Renumbering

namespace RegexBuilder

open Growing List Option Relation

/-! ### Copies in step -/

/-- From states related by `I` the computations come to answers related by `Q`, in states related by `I`, or both fail
alike. -/
def Coupled {σ τ : Type} (I : σ → τ → Prop) (R : Ref → Ref → Prop) {α β : Type} (Q : α → β → Prop)
    (x : StateT σ (Except Failure) α) (y : StateT τ (Except Failure) β) : Prop :=
  ∀ s t, I s t → AlikeOutcome R (fun p p' => Q p.1 p'.1 ∧ I p.2 p'.2) (x s) (y t)

variable {σ τ : Type} {I : σ → τ → Prop} {R : Ref → Ref → Prop}

namespace Coupled

variable {α β γ δ : Type} {Q : α → β → Prop} {Q' : γ → δ → Prop}

theorem pure {a : α} {b : β} (h : Q a b) : Coupled I R Q (pure a) (pure b) := fun _ _ hI => .ok ⟨h, hI⟩

theorem throw {f f' : Failure} (h : f.Alike R f') : Coupled I R Q (throw f) (throw f') := fun _ _ _ => .error h

/-- Steps that are made in step, one after the other. -/
theorem bind {x : StateT σ (Except Failure) α} {y : StateT τ (Except Failure) β} {k : α → StateT σ (Except Failure) γ}
    {k' : β → StateT τ (Except Failure) δ} (h : Coupled I R Q x y) (hk : ∀ a b, Q a b → Coupled I R Q' (k a) (k' b)) :
    Coupled I R Q' (x >>= k) (y >>= k') :=
  fun s t hI => (h s t hI).bind fun p p' hp => hk p.1 p'.1 hp.1 p.2 p'.2 hp.2

theorem mapM {f : α → StateT σ (Except Failure) γ} {f' : β → StateT τ (Except Failure) δ} {l : List α} {l' : List β}
    (h : Forall₂ (fun a b => Coupled I R Q' (f a) (f' b)) l l') : Coupled I R (Forall₂ Q') (l.mapM f) (l'.mapM f') := by
  induction h with
  | nil => exact .pure .nil
  | cons hab _ ih =>
    rw [mapM_cons, mapM_cons]
    exact hab.bind fun _ _ hb => ih.bind fun _ _ hbs => .pure (.cons hb hbs)

end Coupled

section

variable {Q : Ref → Ref → Prop} {endpoint copy : Ref → StateT σ (Except Failure) Ref}
  {endpoint' copy' : Ref → StateT τ (Except Failure) Ref} (hQ : ∀ {a b}, Q a b → (a = none ↔ b = none))
  (hendpoint : ∀ r r', R r r' → Coupled I R Q (endpoint r) (endpoint' r'))
  (hcopy : ∀ r r', R r r' → Coupled I R Q (copy r) (copy' r'))

include hQ hcopy in
theorem copyMember_coupled {r r' : Ref} (h : R r r') : Coupled I R Q (copyMember copy r) (copyMember copy' r') := by
  refine (hcopy r r' h).bind fun a b hab => ?_
  cases a with
  | none =>
    obtain rfl := (hQ hab).1 rfl
    exact .throw (.broken _)
  | some =>
    cases b with
    | none => cases (hQ hab).2 rfl
    | some => exact .pure hab

include hendpoint in
theorem copyRange_coupled {r r' : Range Ref} (h : r.Alike R r') :
    Coupled I R (Range.Alike Q) (copyRange endpoint r) (copyRange endpoint' r') :=
  (hendpoint _ _ h.1).bind fun _ _ ha => (hendpoint _ _ h.2).bind fun _ _ hb => .pure ⟨ha, hb⟩

include hQ hendpoint hcopy in
/-- **Nodes that are alike are copied in step.** -/
theorem Node.copy_coupled {n n' : Node} (h : n.Alike R n') :
    Coupled I R (Node.Alike Q) (n.copy endpoint copy) (n'.copy endpoint' copy') := by
  cases h with
  | leaf l => exact .pure (.leaf l)
  | set h =>
    refine (Coupled.mapM (h.members.imp fun _ _ => copyMember_coupled hQ hcopy)).bind fun _ _ hm => ?_
    refine (Coupled.mapM (h.subtractedMembers.imp fun _ _ => copyMember_coupled hQ hcopy)).bind fun _ _ hm' => ?_
    refine (Coupled.mapM (h.ranges.imp fun _ _ => copyRange_coupled hendpoint)).bind fun _ _ hr => ?_
    refine (Coupled.mapM (h.subtractedRanges.imp fun _ _ => copyRange_coupled hendpoint)).bind fun _ _ hr' => ?_
    exact .pure (.set ⟨hr, hm, hr', hm', h.negated⟩)
  | concat h => exact (Coupled.mapM (h.imp hcopy)).bind fun _ _ h => .pure (.concat h)
  | alternation h => exact (Coupled.mapM (h.imp hcopy)).bind fun _ _ h => .pure (.alternation h)
  | quantified b h => exact (hcopy _ _ h).bind fun _ _ h => .pure (.quantified b h)
  | group h => exact (hcopy _ _ h).bind fun _ _ h => .pure (.group h)
  | enclosed how h => exact (hcopy _ _ h).bind fun _ _ h => .pure (.enclosed how h)
  | modified on off h => exact (hcopy _ _ h).bind fun _ _ h => .pure (.modified on off h)
  | conditional t he hyes hno =>
    refine (hcopy _ _ he).bind fun _ _ he => (hcopy _ _ hyes).bind fun _ _ hyes => ?_
    exact (hcopy _ _ hno).bind fun _ _ hno => .pure (.conditional t he hyes hno)

end

section

variable {g g' : Graph} (hR : g.IsMirror g' R)

include hR

theorem copyEndpoint_coupled {r r' : Ref} (h : R r r') :
    Coupled (fun _ _ => True) R (fun a b => a = none ↔ b = none) (copyEndpoint g r) (copyEndpoint g' r') := by
  rw [copyEndpoint, copyEndpoint, ← character?_alike hR.looksLike h]
  cases g.character? r with
  | none => exact .throw (.broken _)
  | some => exact fun _ _ _ => .ok ⟨iff_of_false (some_ne_none _) (some_ne_none _), trivial⟩

/-- **Patterns that differ in the numbers of nodes are copied in step.** -/
theorem Graph.copying_coupled (hone : IsOneToOne R) : ∀ (d : Nat) {o o' : List NodeId},
    Forall₂ (fun i i' => R (some i) (some i')) o o' → ∀ r r', R r r' →
      Coupled (fun _ _ => True) R (fun a b => a = none ↔ b = none) (g.copying d o r) (g'.copying d o' r')
  | 0, _, _, _, _, _, _ => .throw .exhausted
  | d + 1, o, o', ho, r, r', hr => by
    rw [copying, copying]
    rcases hR.deref? hr with ⟨hnone, hnone'⟩ | ⟨n, n', hn, hn', halike⟩
    · intro s s' _
      rw [copyLevel_absent hnone, copyLevel_absent hnone']
      exact .ok ⟨Iff.rfl, trivial⟩
    · obtain ⟨i, rfl, hi⟩ := bind_eq_some_iff.1 hn
      obtain ⟨i', rfl, hi'⟩ := bind_eq_some_iff.1 hn'
      have ho' : Forall₂ (fun i i' => R (some i) (some i')) (o ++ [i]) (o' ++ [i']) :=
        rel_append ho (.cons hr .nil)
      by_cases hopen : i ∈ o
      · intro s s' _
        rw [copyLevel_open hi hopen, copyLevel_open hi' ((hone.mem_iff ho hr).1 hopen)]
        exact .error (.recursion _ ho')
      · rw [copyLevel_new hi hopen, copyLevel_new hi' fun h => hopen ((hone.mem_iff ho hr).2 h)]
        refine (Node.copy_coupled id (fun _ _ => copyEndpoint_coupled hR) (copying_coupled hone d ho') halike).bind ?_
        exact fun m m' _ _ _ _ => .ok ⟨iff_of_false (some_ne_none _) (some_ne_none _), trivial⟩

end

/-- The depth of a copy does not matter once it is above the number of nodes. -/
theorem Graph.copying_eq_copying {g : Graph} {d d' : Nat} {o : List NodeId} (hd : g.uncopied o < d)
    (hd' : g.uncopied o < d') : g.copying d o = g.copying d' o :=
  bounded_eq_bounded (fun F F' o h => copyLevel_congr F F' o h) (fun _ => rfl) hd hd'

/-- Copies succeed in both graphs or in neither. -/
theorem Graph.IsMirror.copy_alike (hone : IsOneToOne R) {g g' : Graph} (hR : g.IsMirror g' R) {r r' : Ref}
    (hr : R r r') : AlikeOutcome R (fun x x' => x.1 = .none ↔ x'.1 = .none) (g.copy r) (g'.copy r') := by
  have hd := g.uncopied_le []
  have hd' := g'.uncopied_le []
  have hdeep : g.copying (g.size + 1) [] = g.copying (g.size + g'.size + 1) [] :=
    copying_eq_copying (by omega) (by omega)
  have hdeep' : g'.copying (g'.size + 1) [] = g'.copying (g.size + g'.size + 1) [] :=
    copying_eq_copying (by omega) (by omega)
  have halike := copying_coupled hR hone (g.size + g'.size + 1) .nil r r' hr g g' trivial
  rw [← hdeep, ← hdeep'] at halike
  exact halike.imp fun _ _ _ h => h.1

/-! ### Regions -/

namespace Graph

/-- The same answer in both graphs, or the same failure with the same message. -/
inductive SameAnswer {α : Type} (Q : α → α → Prop) (g h : Graph) :
    Except Failure α → Except Failure α → Prop where
  | ok {a b : α} (hab : Q a b) : SameAnswer Q g h (.ok a) (.ok b)
  | error {f : Failure} (hf : f.message g = f.message h) : SameAnswer Q g h (.error f) (.error f)

/-- **No query about `r` tells the graphs apart:** it has the same text, core, emptiness and
singleness, and a copy in both or in neither. -/
structure Undisturbed (g h : Graph) (r : Ref) : Prop where
  render : SameAnswer Eq g h (g.render r) (h.render r)
  core : SameAnswer Eq g h (g.core r) (h.core r)
  isEmpty : SameAnswer Eq g h (g.isEmpty r) (h.isEmpty r)
  isSingle : SameAnswer Eq g h (g.isSingle r) (h.isSingle r)
  copy : SameAnswer (fun x y => x.1 = none ↔ y.1 = none) g h (g.copy r) (h.copy r)

/-- The nodes of `S` are there and refer to nodes of `S` only. -/
def IsRegion (g : Graph) (S : NodeId → Prop) : Prop :=
  ∀ i, S i → ∃ n, g.node? i = some n ∧ ∀ j, some j ∈ n.refs → S j

section

variable {g h : Graph} {S : NodeId → Prop}

/-- What lies below a node of a region is in the region. -/
theorem IsRegion.mem_of_reflTransGen (hS : g.IsRegion S) {i j : NodeId} (hi : S i)
    (hij : ReflTransGen g.Child i j) : S j := by
  induction hij with
  | refl => exact hi
  | tail _ hchild ih =>
    obtain ⟨n, hn, hrefs⟩ := hS _ ih
    obtain ⟨⟨m, hm, hj⟩, -⟩ := hchild
    cases hn.symm.trans hm
    exact hrefs _ hj

/-- In a region the graphs mirror each other. -/
theorem IsRegion.isMirror (hS : g.IsRegion S) (hh : ∀ i, S i → h.node? i = g.node? i) :
    g.IsMirror h fun r r' => r = r' ∧ ∀ i ∈ r, S i := by
  refine ⟨⟨rfl, nofun⟩, ?_⟩
  rintro (_ | i) _ ⟨rfl, hr⟩
  · exact .inl ⟨rfl, rfl⟩
  · obtain ⟨n, hn, hrefs⟩ := hS i (hr i rfl)
    refine .inr ⟨n, n, hn, (hh i (hr i rfl)).trans hn, .refl fun r hr => ⟨rfl, ?_⟩⟩
    rintro j rfl
    exact hrefs j hr

theorem IsRegion.sameAnswer (hS : g.IsRegion S) (hh : ∀ i, S i → h.node? i = g.node? i) {α : Type}
    {Q : α → α → Prop} {x y : Except Failure α}
    (hxy : AlikeOutcome (fun r r' => r = r' ∧ ∀ i ∈ r, S i) Q x y) : SameAnswer Q g h x y := by
  cases hxy with
  | ok hab => exact .ok hab
  | @error f f' hf =>
    have hmessage := (hS.isMirror hh).message_eq hf
    obtain rfl := hf.eq fun _ _ h => h.1
    exact .error hmessage

/-- **What is outside a region does not matter to its patterns.** -/
theorem IsRegion.undisturbed (hS : g.IsRegion S) (hh : ∀ i, S i → h.node? i = g.node? i) {r : Ref}
    (hr : ∀ i ∈ r, S i) : g.Undisturbed h r := by
  have hmirror := hS.isMirror hh
  have hone : IsOneToOne fun r r' => r = r' ∧ ∀ i ∈ r, S i := by
    rintro i j _ _ ⟨⟨⟩, -⟩ ⟨⟨⟩, -⟩
    rfl
  have hquestions := hmirror.questions_alike hone ⟨rfl, hr⟩ true
  refine ⟨?_, ?_, ?_, ?_, hS.sameAnswer hh (hmirror.copy_alike hone ⟨rfl, hr⟩)⟩
  · refine hS.sameAnswer hh ((hquestions .text).bind fun x x' hx => .ok ?_)
    rw [hx.2.out, hx.2.subtraction]
  · exact hS.sameAnswer hh ((hquestions .core).bind fun x x' hx => .ok hx.1.1)
  · exact hS.sameAnswer hh ((hquestions .empty).bind fun x x' hx => .ok (show _ = _ from hx.1))
  · exact hS.sameAnswer hh ((hquestions .single).bind fun x x' hx => .ok (show _ = _ from hx.1))

end

end Graph
end RegexBuilder
