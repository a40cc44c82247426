/-
# Numeric ranges can be written

No node of the tree of a numeric range objects to anything, so wherever the tree stands, the pattern has
a text (`Graph.IsDigital.exists_render`).
-/

import RegexBuilder.Proofs.Inlining

namespace RegexBuilder

open List

/-- At the reference stands a digital tree. -/
def Graph.IsDigital (g : Graph) (r : Ref) : Prop := ∃ t, t.IsDigital ∧ g.Unfolds t r

/-- A node of a digital tree, with the same of what it refers to. -/
inductive Node.IsDigital (g : Graph) : Node → Prop where
  | literal (text : Text) : IsDigital g (.leaf (.literal text))
  | digit : IsDigital g (.leaf (.charClass { kind := .digit }))
  | char (n : Int32) : IsDigital g (.leaf (.character (.plain n)))
  | digits {a b : Int32} {first last : Ref} (h : ¬ b < a)
    (hfirst : g.deref? first = some (.leaf (.character (.plain a))))
    (hlast : g.deref? last = some (.leaf (.character (.plain b)))) :
    IsDigital g (.set { ranges := [⟨first, last⟩] })
  | concat {cs : List Ref} (h : ∀ c ∈ cs, g.IsDigital c) : IsDigital g (.concat cs)
  | alternation {cs : List Ref} (h : ∀ c ∈ cs, g.IsDigital c) : IsDigital g (.alternation cs)
  | quantified {b : Bounds} (hb : b.objection? = none) {c : Ref} (h : g.IsDigital c) :
    IsDigital g (.quantified b c)

namespace Graph

variable {g : Graph}

variable {r : Ref}

theorem isDigital_char {n : Int32} (h : g.deref? r = some (.leaf (.character (.plain n)))) : g.IsDigital r := by
  obtain ⟨i, rfl, hi⟩ := Option.bind_eq_some_iff.1 h
  exact ⟨_, .char n, i, rfl, Nat.zero_le i, hi⟩

/-- What stands at a reference with a digital tree. -/
theorem IsDigital.exists_node (h : g.IsDigital r) : ∃ i n, r = some i ∧ g.node? i = some n ∧ n.IsDigital g := by
  obtain ⟨t, ht, hr⟩ := h
  unfold Unfolds at hr
  cases ht with
  | literal text =>
    obtain ⟨i, rfl, -, hi⟩ := hr
    exact ⟨i, _, rfl, hi, .literal text⟩
  | digit =>
    obtain ⟨i, rfl, -, hi⟩ := hr
    exact ⟨i, _, rfl, hi, .digit⟩
  | char n =>
    obtain ⟨i, rfl, -, hi⟩ := hr
    exact ⟨i, _, rfl, hi, .char n⟩
  | digits hab =>
    obtain ⟨⟨ranges, members, subtracted, subtractedMembers, negated⟩, ⟨i, rfl, -, hi⟩, hs⟩ := hr
    obtain ⟨hranges, hmembers, hsubtracted, hsubtractedMembers, hnegated⟩ := hs
    cases hmembers
    cases hsubtracted
    cases hsubtractedMembers
    cases hnegated
    cases hranges with
    | @cons _ range _ _ hrange hnil =>
      cases hnil
      obtain ⟨⟨_, ⟨⟩, hfirst⟩, _, ⟨⟩, hlast⟩ := hrange
      exact ⟨i, _, rfl, hi, .digits hab hfirst.deref? hlast.deref?⟩
  | concat hts | alternation hts =>
    obtain ⟨cs, ⟨i, rfl, -, hi⟩, hcs⟩ := hr
    refine ⟨i, _, rfl, hi, ?_⟩
    constructor
    intro c hc
    obtain ⟨t, ht, htc⟩ := exists_mem_of_forall₂ (Tree.allStand_iff.1 hcs).flip hc
    exact ⟨t, hts t ht, htc⟩
  | quantified hb ht =>
    obtain ⟨c, ⟨i, rfl, -, hi⟩, hc⟩ := hr
    exact ⟨i, _, rfl, hi, .quantified hb ⟨_, ht, hc⟩⟩

/-- A quantifier may stand behind a digital tree. -/
theorem IsDigital.quantifierObjection? (h : g.IsDigital r) : quantifierObjection? g (g.deref? r) = .ok none := by
  obtain ⟨i, n, rfl, hi, hn⟩ := h.exists_node
  have hi : g.deref? (some i) = some n := hi
  rw [hi]
  cases hn <;> rfl

/-- The ends of a range of digits in order. -/
theorem resolveRanges_digits {a b : Int32} {first last : Ref} (hab : ¬ b < a)
    (hfirst : g.deref? first = some (.leaf (.character (.plain a))))
    (hlast : g.deref? last = some (.leaf (.character (.plain b)))) :
    CharacterSet.resolveRanges g [⟨first, last⟩] = .ok [⟨.plain a, .plain b⟩] := by
  have hinverted : (⟨.plain a, .plain b⟩ : Range Character).isInverted = false := decide_eq_false hab
  simp only [CharacterSet.resolveRanges, Range.mapM?, character?, hfirst, hlast, mapM_cons,
    mapM_nil, hinverted, Option.bind_eq_bind, Option.bind_some, Option.pure_def]
  rfl

variable {n : Node}

/-- What a node of a digital tree refers to is a digital tree. -/
theorem isDigital_of_mem_refs (hn : n.IsDigital g) (hr : r ∈ n.refs) : g.IsDigital r := by
  cases hn with
  | literal | digit | char => cases hr
  | digits hab hfirst hlast =>
    rcases mem_pair.1 hr with rfl | rfl
    · exact isDigital_char hfirst
    · exact isDigital_char hlast
  | concat hcs | alternation hcs => exact hcs r hr
  | quantified hb hc => exact mem_singleton.1 hr ▸ hc

/-- What stands below a digital tree is a digital tree. -/
theorem IsDigital.of_reaches (h : g.IsDigital r) {j : NodeId} (hj : g.Reaches r j) : g.IsDigital (some j) := by
  obtain ⟨i, rfl, hij⟩ := hj
  induction hij with
  | refl => exact h
  | tail _ hchild ih =>
    obtain ⟨⟨n, hn, hmem⟩, -⟩ := hchild
    obtain ⟨_, m, ⟨⟩, hm, hdigital⟩ := ih.exists_node
    cases hn.symm.trans hm
    exact isDigital_of_mem_refs hdigital hmem

/-- **A node of a digital tree objects to nothing.** -/
theorem isSilent_of_isDigital (hn : n.IsDigital g) : n.IsSilent g := by
  cases hn with
  | literal | digit | char => exact ⟨_, rfl⟩
  | digits hab hfirst hlast => exact ⟨rfl, _, _, _, resolveRanges_digits hab hfirst hlast, rfl, rfl⟩
  | concat | alternation => trivial
  | quantified hb hc =>
    refine ⟨hb, fun u hu => ?_⟩
    cases hderef : g.deref? u with
    | none => rfl
    | some m =>
      obtain ⟨j, rfl, hj⟩ := Option.bind_eq_some_iff.1 hderef
      obtain ⟨k, _, rfl, -, hkj⟩ := hu j m rfl hj
      exact hderef ▸ (hc.of_reaches ⟨k, rfl, hkj⟩).quantifierObjection?

/-- **A digital tree has a text:** there is no cycle in it, and no node of it objects. -/
theorem IsDigital.exists_render (hr : g.IsDigital r) : ∃ x, g.render r = .ok x := by
  have hsilent : ∀ {j}, g.Reaches r j → ¬ g.Objects j := by
    rintro j hj ⟨n, hn, hnot⟩
    obtain ⟨_, m, ⟨⟩, hm, hdigital⟩ := (hr.of_reaches hj).exists_node
    cases hn.symm.trans hm
    exact hnot (isSilent_of_isDigital hdigital)
  cases hrender : g.render r with
  | ok x => exact ⟨x, rfl⟩
  | error f =>
    have hfail := Ask.eq_error_of_rendering hrender
    have hfails := questions_failsAs hfail
    cases f with
    | recursion => exact absurd hfails.2 (hr.elim fun _ h => h.2.not_hasCycleFrom)
    | invalid => exact absurd hfails.2 (hsilent hfails.1)
    | broken => exact hfails.1.elim fun j hj => absurd hj.2 (hsilent hj.1)
    | exhausted => exact absurd hfail (asking_ne_exhausted (g.unopened_lt_depth _) .text r {})

end Graph

end RegexBuilder
