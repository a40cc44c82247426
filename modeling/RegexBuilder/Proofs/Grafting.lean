/-
# Grafting trees

A tree with other trees in the place of its old references (`Tree.graft`) stands where the tree stands, if
what is grafted stands in the place of the old references, and it is proper if both are.
-/

import RegexBuilder.Proofs.Planting

namespace RegexBuilder.Tree

open List

mutual

/-- The tree with other trees in the place of its old references. -/
def graft (σ : Ref → Tree) : Tree → Tree
  | existing r => σ r
  | leaf l => leaf l
  | set s => set s
  | concat ts => concat (graftAll σ ts)
  | alternation ts => alternation (graftAll σ ts)
  | quantified b t => quantified b (graft σ t)
  | group t => group (graft σ t)
  | enclosed how t => enclosed how (graft σ t)
  | conditional test e yes no => conditional test (graft σ e) (graft σ yes) (graft σ no)
  | modified on off t => modified on off (graft σ t)

/-- The trees with other trees in the place of their old references. -/
def graftAll (σ : Ref → Tree) : List Tree → List Tree
  | [] => []
  | t :: ts => graft σ t :: graftAll σ ts

end

theorem graftAll_eq_map (σ : Ref → Tree) (ts : List Tree) : graftAll σ ts = ts.map (graft σ) := by
  induction ts with
  | nil => rfl
  | cons t ts ih => rw [graftAll, ih, map_cons]

theorem linksAll_eq_flatMap (skips : Bounds → Bool) (ts : List Tree) :
    linksAll skips ts = ts.flatMap (links skips) := by
  induction ts with
  | nil => rfl
  | cons t ts ih => rw [linksAll, ih, flatMap_cons]

variable {σ : Ref → Tree}

mutual

/-- A grafted tree stands where the tree stands, if what is grafted stands in the place of the old
references. -/
theorem Stands.graft {g : Graph} {low : NodeId} {P Q : Ref → Ref → Prop}
    (hnone : ∀ r, P none r → (σ none).Stands g 0 Q r) : ∀ {t : Tree} {r : Ref}, t.Stands g low P r →
      (∀ i ∈ t.links fun _ => false, ∀ r, P (some i) r → (σ (some i)).Stands g 0 Q r) →
      (t.graft σ).Stands g 0 Q r
  | .existing none, r, h, _ => by
    rw [Stands] at h
    exact hnone r h
  | .existing (some i), r, h, hlinks => by
    rw [Stands] at h
    exact hlinks i (mem_singleton.2 rfl) r h
  | .leaf l, r, h, _ => by
    rw [Stands] at h
    rw [Tree.graft, Stands]
    exact h.mono (Nat.zero_le low)
  | .set s, r, h, _ => by
    rw [Stands] at h
    rw [Tree.graft, Stands]
    obtain ⟨s', hr, hs⟩ := h
    exact ⟨s', hr.mono (Nat.zero_le low), elements_mono (Nat.zero_le low) hs⟩
  | .concat ts, r, h, hlinks | .alternation ts, r, h, hlinks => by
    rw [Stands] at h
    rw [Tree.graft, Stands]
    obtain ⟨cs, hr, hcs⟩ := h
    exact ⟨cs, hr.mono (Nat.zero_le low), AllStand.graft hnone hcs hlinks⟩
  | .quantified b t, r, h, hlinks | .group t, r, h, hlinks | .enclosed how t, r, h, hlinks
  | .modified on off t, r, h, hlinks => by
    rw [Stands] at h
    rw [Tree.graft, Stands]
    obtain ⟨c, hr, hc⟩ := h
    exact ⟨c, hr.mono (Nat.zero_le low), Stands.graft hnone hc hlinks⟩
  | .conditional test e yes no, r, h, hlinks => by
    rw [Stands] at h
    rw [Tree.graft, Stands]
    simp only [links, mem_append] at hlinks
    obtain ⟨e', yes', no', hr, he, hyes, hno⟩ := h
    exact ⟨e', yes', no', hr.mono (Nat.zero_le low), Stands.graft hnone he fun i hi => hlinks i (.inl (.inl hi)),
      Stands.graft hnone hyes fun i hi => hlinks i (.inl (.inr hi)),
      Stands.graft hnone hno fun i hi => hlinks i (.inr hi)⟩

/-- Grafted trees stand where the trees stand. -/
theorem AllStand.graft {g : Graph} {low : NodeId} {P Q : Ref → Ref → Prop}
    (hnone : ∀ r, P none r → (σ none).Stands g 0 Q r) : ∀ {ts : List Tree} {cs : List Ref}, AllStand g low P ts cs →
      (∀ i ∈ linksAll (fun _ => false) ts, ∀ r, P (some i) r → (σ (some i)).Stands g 0 Q r) →
      AllStand g 0 Q (graftAll σ ts) cs
  | [], cs, h, _ => by
    rw [AllStand] at h
    rw [graftAll, AllStand]
    exact h
  | t :: ts, cs, h, hlinks => by
    rw [AllStand] at h
    rw [graftAll, AllStand]
    simp only [linksAll, mem_append] at hlinks
    obtain ⟨c, cs', rfl, hc, hcs⟩ := h
    exact ⟨c, cs', rfl, Stands.graft hnone hc fun i hi => hlinks i (.inl hi),
      AllStand.graft hnone hcs fun i hi => hlinks i (.inr hi)⟩

end

mutual

/-- References grafted on themselves change nothing. -/
theorem graft_existing : ∀ t : Tree, t.graft existing = t
  | .existing _ | .leaf _ | .set _ => rfl
  | .concat ts | .alternation ts => by rw [graft, graftAll_existing ts]
  | .quantified _ t | .group t | .enclosed _ t | .modified _ _ t => by rw [graft, graft_existing t]
  | .conditional _ e yes no => by rw [graft, graft_existing e, graft_existing yes, graft_existing no]

theorem graftAll_existing : ∀ ts : List Tree, graftAll existing ts = ts
  | [] => rfl
  | t :: ts => by rw [graftAll, graft_existing t, graftAll_existing ts]

end

/-- A tree stands with `Q` in the place of `P` if its old references allow it. -/
theorem Stands.imp {g : Graph} {low : NodeId} {P Q : Ref → Ref → Prop} {t : Tree} {r : Ref} (h : t.Stands g low P r)
    (hnone : ∀ r, P none r → Q none r) (hlinks : ∀ i ∈ t.links fun _ => false, ∀ r, P (some i) r → Q (some i) r) :
    t.Stands g 0 Q r := by
  have hstands : (t.graft existing).Stands g 0 Q r := by
    refine h.graft (fun r hr => ?_) fun i hi r hr => ?_
    · rw [Stands]
      exact hnone r hr
    · rw [Stands]
      exact hlinks i hi r hr
  rwa [graft_existing] at hstands

mutual

/-- A grafted tree is proper if the tree is and what is grafted is. -/
theorem IsProper.graft {D : Text → Prop} (hnone : σ none = .absent) : ∀ {t : Tree}, t.IsProper D →
    (∀ i ∈ t.links fun _ => false, (σ (some i)).IsProper D) → (t.graft σ).IsProper D
  | .existing none, _, _ => by
    rw [Tree.graft, hnone]
    trivial
  | .existing (some i), _, hlinks => hlinks i (mem_singleton.2 rfl)
  | .leaf _, h, _ | .set _, h, _ => h
  | .concat ts, h, hlinks | .alternation ts, h, hlinks => AllProper.graft hnone h hlinks
  | .quantified _ t, h, hlinks | .group t, h, hlinks | .enclosed _ t, h, hlinks | .modified _ _ t, h, hlinks =>
    IsProper.graft (t := t) hnone h hlinks
  | .conditional test e yes no, h, hlinks => by
    obtain ⟨rfl, hyes, hno⟩ := h
    simp only [links, mem_append] at hlinks
    exact ⟨hnone, IsProper.graft hnone hyes fun i hi => hlinks i (.inl (.inr hi)),
      IsProper.graft hnone hno fun i hi => hlinks i (.inr hi)⟩

theorem AllProper.graft {D : Text → Prop} (hnone : σ none = .absent) : ∀ {ts : List Tree},
    AllProper D ts → (∀ i ∈ linksAll (fun _ => false) ts, (σ (some i)).IsProper D) →
    AllProper D (graftAll σ ts)
  | [], _, _ => trivial
  | t :: ts, h, hlinks => by
    simp only [linksAll, mem_append] at hlinks
    exact ⟨IsProper.graft hnone h.1 fun i hi => hlinks i (.inl hi),
      AllProper.graft hnone h.2 fun i hi => hlinks i (.inr hi)⟩

end

end RegexBuilder.Tree
