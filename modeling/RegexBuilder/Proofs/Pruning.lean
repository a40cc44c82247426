/-
# Pruned graphs

A quantifier whose bounds are skipped loses its child (`Graph.pruned`). What stands in a graph has no cycle below it
in the pruned graph if its links have none (`Tree.Stands.not_hasCycleFrom`). If quantifiers that allow no repetition
are pruned, every question has the same outcome as before (`Graph.questions_pruned`): such a quantifier is empty, so
nothing is asked about its child.
-/

import RegexBuilder.Proofs.Cycle
import RegexBuilder.Proofs.Mirror
import RegexBuilder.Proofs.Planting

namespace RegexBuilder

open List Option

/-- The node without the child of a quantifier whose bounds are skipped. -/
def Node.pruned (skips : Bounds → Bool) : Node → Node
  | quantified b c => quantified b (if skips b then none else c)
  | n => n

namespace Graph

/-- The graph without the children of quantifiers whose bounds are skipped. -/
def pruned (skips : Bounds → Bool) (g : Graph) : Graph := ⟨g.nodes.map (Node.pruned skips)⟩

variable {skips : Bounds → Bool} {g : Graph}

theorem node?_pruned (i : NodeId) : (g.pruned skips).node? i = (g.node? i).map (Node.pruned skips) := by
  simp [pruned, node?]

theorem size_pruned : (g.pruned skips).size = g.size := by simp [pruned, size]

theorem deref?_pruned (r : Ref) : (g.pruned skips).deref? r = (g.deref? r).map (Node.pruned skips) := by
  cases r with
  | none => rfl
  | some i => exact node?_pruned i

/-- Without skipped bounds nothing is lost. -/
theorem pruned_eq_self : g.pruned (fun _ => false) = g := by
  have hnode : Node.pruned (fun _ => false) = id := by
    funext n
    cases n <;> rfl
  rw [pruned, hnode, Array.map_id]

theorem Holds.node?_pruned {low : NodeId} {r : Ref} {n : Node} (h : g.Holds low r n) :
    ∃ i, r = some i ∧ (g.pruned skips).node? i = some (n.pruned skips) := by
  obtain ⟨i, rfl, -, hn⟩ := h
  exact ⟨i, rfl, by rw [Graph.node?_pruned, hn, map_some]⟩

/-- There is no cycle below a pruned node if there is none below its references. -/
theorem Holds.not_hasCycleFrom {low : NodeId} {r : Ref} {n : Node} (h : g.Holds low r n)
    (hrefs : ∀ c ∈ (n.pruned skips).refs, ¬ (g.pruned skips).HasCycleFrom c) : ¬ (g.pruned skips).HasCycleFrom r := by
  obtain ⟨i, rfl, hi⟩ := h.node?_pruned
  exact not_hasCycleFrom_of_refs hi hrefs

theorem Holds.reaches {low : NodeId} {r c : Ref} {n : Node} (h : g.Holds low r n)
    (hc : c ∈ (n.pruned skips).refs) {j : NodeId} (hreach : (g.pruned skips).Reaches c j)
    (hj : ∃ m, (g.pruned skips).node? j = some m) : (g.pruned skips).Reaches r j := by
  obtain ⟨i, rfl, hi⟩ := h.node?_pruned
  exact hreach.of_below (below_of_mem_refs hi hc) hj

end Graph

theorem Element.not_hasCycleFrom {skips : Bounds → Bool} {g : Graph} {low : NodeId}
    {s : CharacterSet Element} {s' : CharacterSet Ref} (h : s.Alike (Element.Stands g low) s') :
    ∀ c ∈ s'.refs, ¬ (g.pruned skips).HasCycleFrom c := by
  intro c hc
  obtain ⟨e, -, l, rfl, hl⟩ := exists_mem_of_forall₂ h.forall₂_refs.flip hc
  exact hl.not_hasCycleFrom nofun

namespace Tree

variable {skips : Bounds → Bool} {g : Graph} {low : NodeId} {P : Ref → Ref → Prop}

mutual

/-- **There is no cycle below a tree that stands, if there is none below its links.** -/
theorem Stands.not_hasCycleFrom (hnone : ∀ r, P none r → ¬ (g.pruned skips).HasCycleFrom r) :
    ∀ {t : Tree} {r : Ref}, t.Stands g low P r →
      (∀ i ∈ t.links skips, ∀ r, P (some i) r → ¬ (g.pruned skips).HasCycleFrom r) →
      ¬ (g.pruned skips).HasCycleFrom r
  | .existing none, r, h, _ => by
    rw [Stands] at h
    exact hnone r h
  | .existing (some i), r, h, hlinks => by
    rw [Stands] at h
    exact hlinks i (mem_singleton.2 rfl) r h
  | .leaf l, r, h, _ => by
    rw [Stands] at h
    exact h.not_hasCycleFrom nofun
  | .set s, r, h, _ => by
    rw [Stands] at h
    obtain ⟨s', hr, hs⟩ := h
    exact hr.not_hasCycleFrom (Element.not_hasCycleFrom hs)
  | .concat ts, r, h, hlinks | .alternation ts, r, h, hlinks => by
    rw [Stands] at h
    obtain ⟨cs, hr, hcs⟩ := h
    exact hr.not_hasCycleFrom (AllStand.not_hasCycleFrom hnone hcs hlinks)
  | .quantified b t, r, h, hlinks => by
    rw [Stands] at h
    obtain ⟨c, hr, hc⟩ := h
    refine hr.not_hasCycleFrom fun c' hc' => ?_
    rw [links] at hlinks
    obtain rfl := mem_singleton.1 hc'
    by_cases hb : skips b
    · rw [if_pos hb]
      exact Graph.not_hasCycleFrom_of_deref? rfl
    · rw [if_neg hb] at hlinks ⊢
      exact Stands.not_hasCycleFrom hnone hc hlinks
  | .group t, r, h, hlinks | .enclosed how t, r, h, hlinks | .modified on off t, r, h, hlinks => by
    rw [Stands] at h
    obtain ⟨c, hr, hc⟩ := h
    refine hr.not_hasCycleFrom fun c' hc' => ?_
    exact mem_singleton.1 hc' ▸ Stands.not_hasCycleFrom hnone hc hlinks
  | .conditional test e yes no, r, h, hlinks => by
    rw [Stands] at h
    simp only [links, mem_append] at hlinks
    obtain ⟨e', yes', no', hr, he, hyes, hno⟩ := h
    refine hr.not_hasCycleFrom fun c hc => ?_
    rcases mem_cons.1 hc with rfl | hc
    · exact Stands.not_hasCycleFrom hnone he fun i hi => hlinks i (.inl (.inl hi))
    · rcases mem_pair.1 hc with rfl | rfl
      · exact Stands.not_hasCycleFrom hnone hyes fun i hi => hlinks i (.inl (.inr hi))
      · exact Stands.not_hasCycleFrom hnone hno fun i hi => hlinks i (.inr hi)

theorem AllStand.not_hasCycleFrom (hnone : ∀ r, P none r → ¬ (g.pruned skips).HasCycleFrom r) :
    ∀ {ts : List Tree} {cs : List Ref}, AllStand g low P ts cs →
      (∀ i ∈ linksAll skips ts, ∀ r, P (some i) r → ¬ (g.pruned skips).HasCycleFrom r) →
      ∀ c ∈ cs, ¬ (g.pruned skips).HasCycleFrom c
  | [], cs, h, _ => by
    rw [AllStand] at h
    subst h
    exact nofun
  | t :: ts, cs, h, hlinks => by
    rw [AllStand] at h
    simp only [linksAll, mem_append] at hlinks
    obtain ⟨c, cs', rfl, hc, hcs⟩ := h
    intro c' hc'
    rcases mem_cons.1 hc' with rfl | hc'
    · exact Stands.not_hasCycleFrom hnone hc fun i hi => hlinks i (.inl hi)
    · exact AllStand.not_hasCycleFrom hnone hcs (fun i hi => hlinks i (.inr hi)) c' hc'

end

mutual

/-- **A tree that stands reaches its links.** -/
theorem Stands.reaches {j : NodeId} (hj : ∃ m, (g.pruned skips).node? j = some m) :
    ∀ {t : Tree} {r : Ref}, t.Stands g low Eq r → j ∈ t.links skips →
      (g.pruned skips).Reaches r j
  | .existing none, r, _, hlink | .leaf l, r, _, hlink | .set s, r, _, hlink => by cases hlink
  | .existing (some i), r, h, hlink => by
    rw [Stands] at h
    subst h
    obtain rfl := mem_singleton.1 hlink
    exact ⟨j, rfl, .refl⟩
  | .concat ts, r, h, hlink | .alternation ts, r, h, hlink => by
    rw [Stands] at h
    obtain ⟨cs, hr, hcs⟩ := h
    obtain ⟨c, hc, hreach⟩ := AllStand.exists_reaches hj hcs hlink
    exact hr.reaches hc hreach hj
  | .quantified b t, r, h, hlink => by
    rw [Stands] at h
    obtain ⟨c, hr, hc⟩ := h
    rw [links] at hlink
    by_cases hb : skips b
    · rw [if_pos hb] at hlink
      cases hlink
    · rw [if_neg hb] at hlink
      refine hr.reaches (c := c) ?_ (Stands.reaches hj hc hlink) hj
      rw [Node.pruned, if_neg hb]
      exact mem_singleton.2 rfl
  | .group t, r, h, hlink | .enclosed how t, r, h, hlink | .modified on off t, r, h, hlink => by
    rw [Stands] at h
    obtain ⟨c, hr, hc⟩ := h
    exact hr.reaches (mem_singleton.2 rfl) (Stands.reaches hj hc hlink) hj
  | .conditional test e yes no, r, h, hlink => by
    rw [Stands] at h
    obtain ⟨e', yes', no', hr, he, hyes, hno⟩ := h
    simp only [links, mem_append] at hlink
    rcases hlink with (hlink | hlink) | hlink
    · exact hr.reaches (by simp [Node.pruned, Node.refs]) (Stands.reaches hj he hlink) hj
    · exact hr.reaches (by simp [Node.pruned, Node.refs]) (Stands.reaches hj hyes hlink) hj
    · exact hr.reaches (by simp [Node.pruned, Node.refs]) (Stands.reaches hj hno hlink) hj

theorem AllStand.exists_reaches {j : NodeId} (hj : ∃ m, (g.pruned skips).node? j = some m) :
    ∀ {ts : List Tree} {cs : List Ref}, AllStand g low Eq ts cs → j ∈ linksAll skips ts →
      ∃ c ∈ cs, (g.pruned skips).Reaches c j
  | [], _, _, hlink => by cases hlink
  | t :: ts, cs, h, hlink => by
    rw [AllStand] at h
    obtain ⟨c, cs', rfl, hc, hcs⟩ := h
    rcases mem_append.1 hlink with hlink | hlink
    · exact ⟨c, mem_cons_self, Stands.reaches hj hc hlink⟩
    · obtain ⟨c', hc', hreach⟩ := AllStand.exists_reaches hj hcs hlink
      exact ⟨c', mem_cons_of_mem c hc', hreach⟩

end

end Tree

/-! ### Questions about a pruned graph -/

section

variable {skips : Bounds → Bool} {g : Graph}

/-- Other nodes do not see that a quantifier is pruned. -/
theorem Graph.pruned_looksLike : (g.pruned skips).Pairs g Eq (Node.LooksLike Eq) := by
  rintro r _ rfl
  rw [deref?_pruned]
  cases g.deref? r with
  | none => exact .inl ⟨rfl, rfl⟩
  | some n =>
    refine .inr ⟨_, n, rfl, rfl, ?_⟩
    cases n with
    | quantified b c => exact .quantified b _ c
    | leaf l | set s | concat cs | alternation cs | group c | enclosed how c | conditional t e yes no
    | modified => exact .alike (.refl fun _ _ => rfl)

/-- A quantifier whose bounds are skipped is empty. -/
def Graph.SkipsEmpty (g : Graph) (skips : Bounds → Bool) : Constraint
  | .empty, r, e => ∀ b c, g.deref? r = some (.quantified b c) → skips b = true → e = true
  | .text, _, _ | .core, _, _ | .single, _, _ => True

section

variable (hskips : ∀ b, skips b = true → b.max = 0)

include hskips

/-- Whoever asks is told that a skipped quantifier is empty. -/
theorem Graph.isUpheld_skipsEmpty : g.IsUpheld (g.SkipsEmpty skips) := by
  refine ⟨fun q r hr => ?_, fun {i n} hn q => ?_⟩
  · cases q with
    | empty => exact fun _ _ _ _ => rfl
    | text | core | single => trivial
  · cases q with
    | text | core | single => exact .of_forall _ fun _ => trivial
    | empty =>
      by_cases hquantified : ∃ b c, n = .quantified b c ∧ skips b = true
      · obtain ⟨b, c, rfl, hb⟩ := hquantified
        rw [Node.rule, Node.isEmpty]
        split
        · trivial
        · rw [if_pos (hskips b hb)]
          exact fun _ _ _ _ => rfl
      · refine .of_forall _ fun e b c hbc hb => ?_
        obtain rfl : n = .quantified b c := some_injective _ (hn.symm.trans hbc)
        exact absurd ⟨b, c, rfl, hb⟩ hquantified

/-- The rules of a pruned node do the same as before: it is empty, so its child does not matter. -/
theorem Node.rule_sameUnder {i : NodeId} {n : Node} (hn : g.node? i = some n) (q : Question) :
    (n.rule g i q).SameUnder (g.SkipsEmpty skips) ((n.pruned skips).rule (g.pruned skips) i q) := by
  by_cases hquantified : ∃ b c, n = .quantified b c ∧ skips b = true
  · obtain ⟨b, c, rfl, hb⟩ := hquantified
    have hmax : b.max = 0 := hskips b hb
    have honce : b.isOnce = false := by simp [Bounds.isOnce, hmax]
    rw [Node.pruned, if_pos hb]
    cases q with
    | text =>
      refine .question .empty (some i) fun e he => ?_
      obtain rfl : e = true := he b c hn hb
      exact .refl _
    | core =>
      simp only [rule, Node.core, honce]
      exact .refl _
    | empty =>
      simp only [rule, Node.isEmpty, hmax, if_true]
      exact .refl _
    | single =>
      simp only [rule, Node.isSingle, honce]
      exact .refl _
  · have hpruned : n.pruned skips = n := by
      cases n with
      | quantified b c =>
        have hb : skips b = false := by
          cases h : skips b with
          | false => rfl
          | true => exact absurd ⟨b, c, rfl, h⟩ hquantified
        simp [Node.pruned, hb]
      | leaf l | set s | concat cs | alternation cs | group c | enclosed how c | conditional t e yes no
      | modified => rfl
    have hmirrors : (n.rule (g.pruned skips) i q).Mirrors Eq (q.Alike Eq) (n.rule g i q) :=
      (Alike.refl fun _ _ => rfl).rule_mirrors Graph.pruned_looksLike rfl q
    rw [hpruned, hmirrors.eq]
    exact .refl _

/-- By induction on the depth: nothing is asked that the pruned graph answers differently. -/
theorem Graph.asking_pruned (keep : Bool) : ∀ (d : Nat) (o : Open) (q : Question) (r : Ref)
    (s : Session), s.Upholds (g.SkipsEmpty skips) →
      g.asking keep d o q r s = (g.pruned skips).asking keep d o q r s
  | 0, _, _, _, _, _ => rfl
  | d + 1, o, q, r, s, hs => by
    rw [asking, asking]
    rcases g.absent_or_node r with hr | ⟨i, n, rfl, hn⟩
    · have hr' : (g.pruned skips).deref? r = none := by rw [deref?_pruned, hr, map_none]
      rw [level_absent hr, level_absent hr']
    · have hn' : (g.pruned skips).node? i = some (n.pruned skips) := by
        rw [node?_pruned, hn, map_some]
      rw [level_node hn, level_node hn']
      have hrun := (Node.rule_sameUnder hskips hn q).run_eq
        (asking_upholds (isUpheld_skipsEmpty hskips) keep d (o.enter q i))
        (asking_pruned keep d (o.enter q i)) s.out.length hs
      cases hk : (if keep then (s.kept q).lookup i else none) with
      | some => rw [visit_kept hk, visit_kept hk]
      | none =>
        by_cases hi : i ∈ o q
        · rw [visit_open hk hi, visit_open hk hi]
        · rw [visit_new hk hi, visit_new hk hi, Rule.start_apply, Rule.start_apply, hrun]

/-- **What is pruned is not asked about:** every question has the same outcome in a graph without the
children of quantifiers that allow no repetition. -/
theorem Graph.questions_pruned (keep : Bool) (q : Question) (r : Ref) :
    g.questions keep q r {} = (g.pruned skips).questions keep q r {} := by
  rw [questions, questions, size_pruned]
  exact asking_pruned hskips keep _ _ q r {} (Session.upholds_empty _)

end

end

end RegexBuilder
