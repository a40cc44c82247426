/-
# Planting in step

Two trees that differ in the numbers of their old references are planted in two graphs. The new nodes
then have the same distance from the first new one in both, and differ in the numbers of what they
refer to only (`Tree.plant_paired`). Old references are related by `L`, new ones by their distance
(`Shifted`).
-/

import RegexBuilder.Proofs.Grafting

namespace RegexBuilder

open List

/-! ### Graphs in step -/

section

variable (L : NodeId → NodeId → Prop) (b b' : Nat)

/-- Both references are absent, or they lead to nodes that are related by `L`, or to nodes at the same
distance, less than `w`, from `b` and `b'`. -/
def Shifted (w : Nat) (r r' : Ref) : Prop :=
  (r = none ∧ r' = none) ∨ (∃ i i', r = some i ∧ r' = some i' ∧ L i i') ∨
    ∃ o, o < w ∧ r = some (b + o) ∧ r' = some (b' + o)

/-- The graphs have `w` nodes from `b` and from `b'` on, and these are alike one by one. -/
structure InStep (w : Nat) (g g' : Graph) : Prop where
  size : g.size = b + w
  size' : g'.size = b' + w
  alike : ∀ o < w, ∃ n n', g.node? (b + o) = some n ∧ g'.node? (b' + o) = some n' ∧
    n.Alike (Shifted L b b' w) n'

/-- Where the facts `F` hold from now on, the two plantings keep graphs in step, and what they give is
related by `Q` from then on. -/
def Paired {α β : Type} (F : Nat → Prop) (p : Planting α) (p' : Planting β)
    (Q : Nat → α → β → Prop) : Prop :=
  ∀ g g' w, InStep L b b' w g g' → (∀ v ≥ w, F v) → ∃ w', w ≤ w' ∧
    InStep L b b' w' (p g).2 (p' g').2 ∧ ∀ v ≥ w', Q v (p g).1 (p' g').1

end

section

variable {L : NodeId → NodeId → Prop} {b b' w v : Nat} {r r' : Ref}

theorem Shifted.mono (h : w ≤ v) (hr : Shifted L b b' w r r') : Shifted L b b' v r r' :=
  hr.imp id (.imp id fun ⟨o, ho, h₁, h₂⟩ => ⟨o, Nat.lt_of_lt_of_le ho h, h₁, h₂⟩)

theorem Shifted.none : Shifted L b b' w none none := .inl ⟨rfl, rfl⟩

theorem Shifted.old {i i' : NodeId} (h : L i i') : Shifted L b b' w (some i) (some i') :=
  .inr (.inl ⟨i, i', rfl, rfl, h⟩)

/-- Nothing has been planted yet. -/
theorem inStep_zero (L : NodeId → NodeId → Prop) (g g' : Graph) : InStep L g.size g'.size 0 g g' :=
  ⟨rfl, rfl, fun _ ho => absurd ho (Nat.not_lt_zero _)⟩

/-- Nodes that are alike keep the graphs in step. -/
theorem InStep.add {g g' : Graph} {n n' : Node} (h : InStep L b b' w g g')
    (hn : n.Alike (Shifted L b b' w) n') : InStep L b b' (w + 1) (g.add n).2 (g'.add n').2 := by
  have hmono : ∀ r r', Shifted L b b' w r r' → Shifted L b b' (w + 1) r r' := fun _ _ => Shifted.mono (Nat.le_succ w)
  have hsize : ∀ (g : Graph) (n : Node), (g.add n).2.size = g.size + 1 := fun g n =>
    Array.size_push ..
  refine ⟨by rw [hsize, h.size]; rfl, by rw [hsize, h.size']; rfl, fun o ho => ?_⟩
  rcases Nat.lt_succ_iff_lt_or_eq.1 ho with ho | rfl
  · obtain ⟨m, m', hm, hm', halike⟩ := h.alike o ho
    exact ⟨m, m', g.extends_add n _ _ hm, g'.extends_add n' _ _ hm', halike.mono hmono⟩
  · refine ⟨n, n', ?_, ?_, hn.mono hmono⟩
    · rw [← h.size]
      exact g.node?_add n
    · rw [← h.size']
      exact g'.node?_add n'

namespace Paired

variable {α β γ δ : Type} {F F' : Nat → Prop} {p : Planting α} {p' : Planting β}
  {Q Q' : Nat → α → β → Prop}

theorem pure {x : α} {y : β} (h : ∀ w, F w → Q w x y) :
    Paired L b b' F (Pure.pure x) (Pure.pure y) Q := fun _ _ w hstep hF =>
  ⟨w, Nat.le_refl w, hstep, fun v hv => h v (hF v hv)⟩

theorem mono (hp : Paired L b b' F p p' Q) (hF : ∀ w, F' w → F w)
    (hQ : ∀ w x y, F' w → Q w x y → Q' w x y) : Paired L b b' F' p p' Q' := by
  intro g g' w hstep hF'
  obtain ⟨w', hw, hstep', hQ'⟩ := hp g g' w hstep fun v hv => hF v (hF' v hv)
  exact ⟨w', hw, hstep', fun v hv => hQ v _ _ (hF' v (Nat.le_trans hw hv)) (hQ' v hv)⟩

/-- Plantings in step may follow each other. -/
theorem bind {k : α → Planting γ} {k' : β → Planting δ} {S : Nat → γ → δ → Prop} (hp : Paired L b b' F p p' Q)
    (hk : ∀ x y, Paired L b b' (fun w => F w ∧ Q w x y) (k x) (k' y) S) : Paired L b b' F (p >>= k) (p' >>= k') S := by
  intro g g' w hstep hF
  obtain ⟨w₁, hw₁, hstep₁, hQ⟩ := hp g g' w hstep hF
  obtain ⟨w₂, hw₂, hstep₂, hS⟩ := hk _ _ _ _ w₁ hstep₁ fun v hv =>
    ⟨hF v (Nat.le_trans hw₁ hv), hQ v hv⟩
  exact ⟨w₂, Nat.le_trans hw₁ hw₂, hstep₂, hS⟩

theorem mapM {f : α → Planting γ} {f' : α → Planting δ} {S : Nat → γ → δ → Prop} :
    ∀ {l : List α}, (∀ a ∈ l, Paired L b b' F (f a) (f' a) S) →
      Paired L b b' F (l.mapM f) (l.mapM f') fun w xs ys => Forall₂ (S w) xs ys
  | [], _ => by
    rw [mapM_nil, mapM_nil]
    exact .pure fun _ _ => .nil
  | a :: l, h => by
    rw [mapM_cons, mapM_cons]
    have hl := mapM fun c hc => h c (mem_cons_of_mem a hc)
    refine (h a mem_cons_self).bind fun x y => ?_
    refine (hl.mono (fun _ hF => hF.1) fun _ _ _ _ hxs => hxs).bind fun xs ys => ?_
    exact .pure fun _ hF => .cons hF.1.2 hF.2

/-- Nodes that are alike may be added. -/
theorem add {n n' : Node} (h : ∀ w, F w → n.Alike (Shifted L b b' w) n') :
    Paired L b b' F (Planting.add n) (Planting.add n') (Shifted L b b') := by
  intro g g' w hstep hF
  refine ⟨w + 1, Nat.le_succ w, hstep.add (h w (hF w (Nat.le_refl w))), fun v hv => ?_⟩
  refine .inr (.inr ⟨w, hv, ?_, ?_⟩)
  · rw [← hstep.size]
    rfl
  · rw [← hstep.size']
    rfl

/-- What was planted in step becomes part of new nodes. -/
theorem thenAdd {node : α → Node} {node' : β → Node} (hp : Paired L b b' F p p' Q)
    (h : ∀ w x y, F w → Q w x y → (node x).Alike (Shifted L b b' w) (node' y)) :
    Paired L b b' F (p >>= fun x => Planting.add (node x)) (p' >>= fun y => Planting.add (node' y)) (Shifted L b b') :=
  hp.bind fun x y => add fun w hF => h w x y hF.1 hF.2

end Paired

/-! ### Trees in step -/

variable {F : Nat → Prop}

/-- The elements of a set are planted in step. -/
theorem plantSet_paired {D : Text → Prop} {s : CharacterSet Element} (h : Element.IsProperSet D s) :
    Paired L b b' F (Element.plantSet s) (Element.plantSet s) fun w t t' => t.Alike (Shifted L b b' w) t' := by
  have hfresh : ∀ {e : Element}, (∃ l, e = .fresh l) → ∀ {F : Nat → Prop},
      Paired L b b' F e.plant e.plant (Shifted L b b') := by
    rintro _ ⟨l, rfl⟩ F
    exact .add fun _ _ => .leaf l
  have hmember : ∀ m ∈ s.members ++ s.subtractedMembers, ∀ {F : Nat → Prop},
      Paired L b b' F m.plant m.plant (Shifted L b b') := fun m hm _ =>
    hfresh ((h.1 m hm).imp fun _ hl => hl.1)
  have hrange : ∀ r ∈ s.ranges ++ s.subtractedRanges, ∀ {F : Nat → Prop},
      Paired L b b' F (Element.plantRange r) (Element.plantRange r) fun w => Range.Alike (Shifted L b b' w) := by
    intro r hr F
    obtain ⟨⟨c, hfirst⟩, ⟨c', hlast⟩⟩ := h.2 r hr
    refine (hfresh ⟨_, hfirst⟩).bind fun _ _ => (hfresh ⟨_, hlast⟩).bind fun _ _ => ?_
    exact .pure fun _ hF => ⟨hF.1.2, hF.2⟩
  refine (Paired.mapM fun r hr => hrange r (mem_append_left _ hr)).bind fun _ _ => ?_
  refine (Paired.mapM fun m hm => hmember m (mem_append_left _ hm)).bind fun _ _ => ?_
  refine (Paired.mapM fun r hr => hrange r (mem_append_right _ hr)).bind fun _ _ => ?_
  refine (Paired.mapM fun m hm => hmember m (mem_append_right _ hm)).bind fun _ _ => ?_
  exact .pure fun _ hF => ⟨hF.1.1.1.2, hF.1.1.2, hF.1.2, hF.2, rfl⟩

namespace Tree

/-- Old references with other numbers. -/
def renumber (f : NodeId → NodeId) (r : Ref) : Tree := .existing (r.map f)

variable {D : Text → Prop} {f : NodeId → NodeId}

mutual

/-- **A tree and the same tree with other old references are planted in step.** -/
theorem plant_paired {F : Nat → Prop} : ∀ {t : Tree}, t.IsProper D →
    (∀ i ∈ t.links fun _ => false, L i (f i)) →
    Paired L b b' F t.plant (t.graft (renumber f)).plant (Shifted L b b')
  | .existing none, _, _ => by
    rw [graft, renumber, plant, plant]
    exact .pure fun _ _ => .none
  | .existing (some i), _, hlinks => by
    rw [graft, renumber, plant, plant]
    exact .pure fun _ _ => .old (hlinks i (mem_singleton.2 rfl))
  | .leaf l, _, _ => by
    rw [graft, plant]
    exact .add fun _ _ => .leaf l
  | .set s, h, _ => by
    rw [graft, plant]
    exact (plantSet_paired h).thenAdd fun _ _ _ _ hs => .set hs
  | .concat ts, h, hlinks | .alternation ts, h, hlinks => by
    rw [graft, plant, plant]
    exact (plantAll_paired h hlinks).thenAdd fun _ _ _ _ hcs => by constructor; exact hcs
  | .quantified _ t, h, hlinks | .group t, h, hlinks | .enclosed _ t, h, hlinks | .modified _ _ t, h, hlinks => by
    rw [graft, plant, plant]
    exact (plant_paired (t := t) h hlinks).thenAdd fun _ _ _ _ hc => by constructor; exact hc
  | .conditional test e yes no, h, hlinks => by
    obtain ⟨rfl, hyes, hno⟩ := h
    simp only [links, mem_append] at hlinks
    rw [graft, plant, plant]
    have hnone : Paired L b b' F (plant absent) (plant (graft (renumber f) absent))
        (Shifted L b b') := .pure fun _ _ => .none
    refine hnone.bind fun _ _ => ?_
    refine (plant_paired hyes fun i hi => hlinks i (.inl (.inr hi))).bind fun _ _ => ?_
    exact (plant_paired hno fun i hi => hlinks i (.inr hi)).thenAdd fun _ _ _ hF hc =>
      .conditional test hF.1.2 hF.2 hc

theorem plantAll_paired {F : Nat → Prop} : ∀ {ts : List Tree}, AllProper D ts →
    (∀ i ∈ linksAll (fun _ => false) ts, L i (f i)) →
    Paired L b b' F (plantAll ts) (plantAll (graftAll (renumber f) ts))
      fun w cs cs' => Forall₂ (Shifted L b b' w) cs cs'
  | [], _, _ => by
    rw [graftAll, plantAll]
    exact .pure fun _ _ => .nil
  | t :: ts, h, hlinks => by
    simp only [linksAll, mem_append] at hlinks
    rw [graftAll, plantAll, plantAll]
    refine (plant_paired h.1 fun i hi => hlinks i (.inl hi)).bind fun _ _ => ?_
    refine (plantAll_paired h.2 fun i hi => hlinks i (.inr hi)).bind fun _ _ => ?_
    exact .pure fun _ hF => .cons hF.1.2 hF.2

end

end Tree

end

end RegexBuilder
