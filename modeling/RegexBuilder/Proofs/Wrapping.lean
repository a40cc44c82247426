/-
# Patterns that only wrap another

A container may stand for one pattern alone: a group, an alternation with one branch, a sequence in which one child
is not empty, a quantifier that says once. It comes down to what that pattern comes down to (`Node.Wraps`), and so
`Graph.core_induction` follows a chain of containers to its end. If that is clear then so are the containers on the
way, and they are empty and single as it is (`Graph.IsClear.of_core`).
-/

import RegexBuilder.Proofs.Quiet

namespace RegexBuilder

/-! ### Chains of containers -/

/-- The node stands for `r` alone and comes down to what `r` comes down to. -/
inductive Node.Wraps (g : Graph) : Node → Ref → Prop
  | concat {cs : List Ref} {r : Ref} (h : (nonEmpty cs).Finds g.Means [r]) : Wraps g (.concat cs) r
  | alternation (r : Ref) : Wraps g (.alternation [r]) r
  | once {b : Bounds} (h : b.isOnce = true) (r : Ref) : Wraps g (.quantified b r) r
  | group {r : Ref} (h : g.isAbsent r = false) : Wraps g (.group r) r

theorem Bounds.objection?_of_isOnce {b : Bounds} (h : b.isOnce = true) : b.objection? = none ∧ b.max ≠ 0 := by
  have hb : b.min = 1 ∧ b.max = 1 := by simpa [isOnce] using h
  simp [objection?, hb, unbounded]

/-- What a quantifier `i` that is not empty writes, if its child comes down to `u`. -/
def writeRepeated (g : Graph) (i : NodeId) (bounds : Bounds) (u : Ref) : Rule Unit :=
  match quantifierObjection? g (g.deref? u) with
  | .error fault => Rule.fault fault
  | .ok (some why) => Rule.object i why
  | .ok none =>
    if bounds.isOnce then
      Rule.write u
    else do
      writeSingle u
      Rule.emit bounds.suffix

theorem writeQuantified_eq (g : Graph) (i : NodeId) (bounds : Bounds) (c : Ref) :
    writeQuantified g i bounds c =
      (do if ← Rule.ask .empty (some i) then return () else
          writeRepeated g i bounds (← Rule.ask .core c) : Rule Unit) :=
  rfl

namespace Graph

variable {g : Graph} {r u : Ref} {i : NodeId} {n : Node}

/-- **A node comes down to itself, or it wraps what comes down to the same.** -/
theorem exists_wraps (hn : g.node? i = some n) {e : Nat} (h : g.MeansAt (e + 1) .core (some i) u) :
    u = some i ∨ ∃ r, n.Wraps g r ∧ g.MeansAt e .core r u := by
  obtain ⟨e', he, h⟩ := exists_findsAt_of_meansAt hn (by decide) h
  cases he
  have hask : ∀ {r}, n.Wraps g r → (Rule.ask .core r).Finds (g.MeansAt e) u →
      u = some i ∨ ∃ r, n.Wraps g r ∧ g.MeansAt e .core r u :=
    fun hr h => .inr ⟨_, hr, (Rule.finds_ask (by decide)).1 h⟩
  cases n with
  | leaf | set | enclosed | conditional | modified => exact .inl h.symm
  | concat cs =>
    obtain ⟨rs, hrs, h⟩ := Rule.finds_bind.1 h
    have hrs : (nonEmpty cs).Finds g.Means rs := hrs.mono fun _ _ _ hb => ⟨e, hb⟩
    match rs with
    | [] | _ :: _ :: _ => exact .inl h.symm
    | [r] => exact hask (.concat hrs) h
  | alternation cs =>
    match cs with
    | [] | _ :: _ :: _ => exact .inl h.symm
    | [r] => exact hask (.alternation r) h
  | quantified b c =>
    rw [Node.rule, Node.core] at h
    split at h
    · next hb => exact hask (.once hb c) h
    · exact .inl h.symm
  | group =>
    rw [Node.rule, Node.core] at h
    split at h
    · exact .inl h.symm
    · next hc => exact hask (.group (Bool.eq_false_iff.2 hc)) h

/-- Induction over the containers between a pattern and what it comes down to. -/
theorem core_induction {motive : Ref → Ref → Prop} (absent : ∀ r, g.deref? r = none → motive r none)
    (self : ∀ i, g.Means .core (some i) (some i) → motive (some i) (some i))
    (wraps : ∀ i n r u, g.node? i = some n → n.Wraps g r → g.Means .core r u → motive r u → motive (some i) u) :
    ∀ {r u}, g.Means .core r u → motive r u := by
  rintro r u ⟨e, h⟩
  induction e generalizing r with
  | zero => obtain ⟨fl, h⟩ := h; cases h
  | succ e ih =>
    rcases g.absent_or_node r with hr | ⟨i, n, rfl, hn⟩
    · cases Means.unique ⟨e + 1, h⟩ (means_absent hr)
      exact absent r hr
    · rcases exists_wraps hn h with rfl | ⟨r', hwraps, h⟩
      · exact self i ⟨_, h⟩
      · exact wraps i n r' u hn hwraps ⟨e, h⟩ (ih h)

/-- **What a pattern comes down to comes down to itself.** -/
theorem means_core_core (h : g.Means .core r u) : g.Means .core u u :=
  core_induction (motive := fun _ u => g.Means .core u u) (fun _ _ => means_absent rfl) (fun _ h => h)
    (fun _ _ _ _ _ _ _ h => h) h

/-! ### Emptiness along a chain -/

theorem isFilled_of_mem_nonEmpty {cs rs : List Ref} (h : (nonEmpty cs).Finds g.Means rs) : ∀ r ∈ rs, g.IsFilled r := by
  induction cs generalizing rs with
  | nil => exact fun r hr => nomatch (show [] = rs from h) ▸ hr
  | cons c cs ih =>
    obtain ⟨empty, hempty, h⟩ := Rule.finds_bind.1 h
    obtain ⟨others, hothers, h⟩ := Rule.finds_bind.1 h
    rw [Rule.finds_pure] at h
    cases empty with
    | true => exact h ▸ ih hothers
    | false => exact h ▸ List.forall_mem_cons.2 ⟨(Rule.finds_ask (by decide)).1 hempty, ih hothers⟩

/-- **What is empty is single.** -/
theorem means_single_of_empty (h : g.Means .empty r true) : g.Means .single r true := by
  obtain ⟨e, h⟩ := h
  induction e generalizing r with
  | zero => obtain ⟨fl, h⟩ := h; cases h
  | succ e ih =>
    rcases g.absent_or_node r with hr | ⟨i, n, rfl, hn⟩
    · exact means_absent hr
    rw [means_node hn (by decide)]
    have hempty : g.Means .empty (some i) true := ⟨e + 1, h⟩
    obtain ⟨e', he, h⟩ := exists_findsAt_of_meansAt hn (by decide) h
    cases he
    have hask : ∀ {r}, (Rule.ask .empty r).Finds (g.MeansAt e) true → (Rule.ask .single r).Finds g.Means true :=
      fun h => (Rule.finds_ask (by decide)).2 (ih ((Rule.finds_ask (by decide)).1 h))
    cases n with
    | leaf l =>
      have hl : l.isEmpty = true := h
      cases l with
      | literal t =>
        cases t with
        | nil => rfl
        | cons => cases hl
      | raw => exact hl
      | comment => rfl
      | character | charClass | wildcard | anchor | backreference => cases hl
    | set | enclosed | conditional | modified => rfl
    | concat =>
      obtain ⟨rs, hrs, h⟩ := Rule.finds_bind.1 h
      cases List.isEmpty_iff.1 h
      exact Rule.finds_bind.2 ⟨[], hrs.mono fun _ _ _ hb => ⟨e, hb⟩, rfl⟩
    | alternation cs =>
      cases cs with
      | nil => rfl
      | cons r rest =>
        cases rest with
        | nil => exact hask h
        | cons => cases h
    | quantified => exact Rule.finds_bind.2 ⟨true, (Rule.finds_ask (by decide)).2 hempty, rfl⟩
    | group => exact hask h

variable {bounds : Bounds} {c : Ref} {b : Bool}

/-- A quantifier that says once is empty if what its child comes down to is. -/
theorem means_empty_once (hn : g.node? i = some (.quantified bounds c)) (honce : bounds.isOnce = true) :
    g.Means .empty (some i) b ↔ ∃ u, g.Means .core c u ∧ g.Means .empty u b := by
  obtain ⟨hbounds, hmax⟩ := Bounds.objection?_of_isOnce honce
  rw [means_node hn (by decide), Node.rule, Node.isEmpty, hbounds, if_neg hmax, Rule.finds_bind]
  exact exists_congr fun u => and_congr (Rule.finds_ask (by decide)) (Rule.finds_ask (by decide))

/-- A container is empty if what it wraps is. -/
theorem means_empty_of_wraps (hn : g.node? i = some n) (hwraps : n.Wraps g r) (hu : g.Means .core r u)
    (hr : g.Means .empty r b) (hub : g.Means .empty u b) : g.Means .empty (some i) b := by
  have hask : (Rule.ask .empty r).Finds g.Means b := (Rule.finds_ask (by decide)).2 hr
  cases hwraps with
  | concat h =>
    cases hr.unique (isFilled_of_mem_nonEmpty h r (List.mem_singleton.2 rfl))
    exact (means_node hn (by decide)).2 (Rule.finds_bind.2 ⟨[r], h, rfl⟩)
  | alternation | group => exact (means_node hn (by decide)).2 hask
  | once h r => exact (means_empty_once hn h).2 ⟨u, hu, hub⟩

theorem means_single_of_wraps (hn : g.node? i = some n) (hwraps : n.Wraps g r) {c : Bool}
    (hempty : g.Means .empty (some i) b) (hb : b = true → c = true) (hr : g.Means .single r c) :
    g.Means .single (some i) c := by
  rw [means_node hn (by decide)]
  have hask : (Rule.ask .single r).Finds g.Means c := (Rule.finds_ask (by decide)).2 hr
  cases hwraps with
  | concat h => exact Rule.finds_bind.2 ⟨[r], h, hask⟩
  | alternation | group => exact hask
  | once h r =>
    refine Rule.finds_bind.2 ⟨b, (Rule.finds_ask (by decide)).2 hempty, ?_⟩
    cases b with
    | true => exact (hb rfl).symm
    | false =>
      simp only [Bool.false_eq_true, if_false, h, if_true]
      exact hask

/-- **A pattern is empty and single as what it comes down to.** -/
theorem means_of_core (h : g.Means .core r u) {c : Bool} : g.Means .empty u b → g.Means .single u c →
    g.Means .empty r b ∧ g.Means .single r c := by
  refine core_induction (motive := fun r u => g.Means .empty u b → g.Means .single u c →
    g.Means .empty r b ∧ g.Means .single r c) ?_ ?_ ?_ h
  · intro r hr hb hc
    cases hb.unique (means_absent rfl)
    cases hc.unique (means_absent rfl)
    exact ⟨means_absent hr, means_absent hr⟩
  · exact fun i _ hb hc => ⟨hb, hc⟩
  · intro i n r u hn hwraps hu ih hb hc
    obtain ⟨hrb, hrc⟩ := ih hb hc
    have hempty := means_empty_of_wraps hn hwraps hu hrb hb
    refine ⟨hempty, means_single_of_wraps hn hwraps hempty ?_ hrc⟩
    rintro rfl
    exact hc.unique (means_single_of_empty hb)

theorem IsClear.of_core (h : g.IsClear u) (hr : g.Means .core r u) : g.IsClear r := by
  obtain ⟨b, hb⟩ := h.empty
  obtain ⟨c, hc⟩ := h.single
  obtain ⟨hrb, hrc⟩ := means_of_core hr hb hc
  exact ⟨⟨u, hr⟩, ⟨b, hrb⟩, ⟨c, hrc⟩⟩

/-! ### What is written is clear -/

/-- A node is clear if its quiet rules find answers. -/
theorem isClear_node (hn : g.node? i = some n) {c : Bool} (hcore : (n.core g i).Finds g.Means u)
    (hempty : (n.isEmpty g i).Finds g.Means b) (hsingle : (n.isSingle i).Finds g.Means c) : g.IsClear (some i) :=
  ⟨⟨u, (means_node hn (by decide)).2 hcore⟩, ⟨b, (means_node hn (by decide)).2 hempty⟩,
    ⟨c, (means_node hn (by decide)).2 hsingle⟩⟩

/-- A quantifier of which one knows whether it is empty comes down to something. -/
theorem exists_core_quantified (hn : g.node? i = some (.quantified bounds c)) (h : g.Means .empty (some i) b) :
    ∃ u, ((Node.quantified bounds c).core g i).Finds g.Means u := by
  rw [Node.core]
  split
  · next honce =>
    obtain ⟨u, hu, -⟩ := (means_empty_once hn honce).1 h
    exact ⟨u, (Rule.finds_ask (by decide)).2 hu⟩
  · exact ⟨some i, rfl⟩

theorem writeQuantified_upholds (hn : g.node? i = some (.quantified bounds c)) :
    (writeQuantified g i bounds c).Upholds g.Attests fun _ => g.IsClear (some i) := by
  rw [writeQuantified_eq]
  intro empty hempty
  obtain ⟨u, hu⟩ := exists_core_quantified hn hempty
  have hself := (Rule.finds_ask (by decide)).2 hempty
  have hclear : ∀ {c'}, (Node.isSingle i (.quantified bounds c)).Finds g.Means c' → g.IsClear (some i) :=
    isClear_node hn hu ((means_node hn (by decide)).1 hempty)
  cases empty with
  | true => exact hclear (Rule.finds_bind.2 ⟨true, hself, rfl⟩)
  | false =>
    intro v hv
    have hsingle : ∀ {c'}, (if bounds.isOnce then Rule.ask .single c else pure false : Rule Bool).Finds g.Means c' →
        g.IsClear (some i) := fun h => hclear (Rule.finds_bind.2 ⟨false, hself, h⟩)
    show (writeRepeated g i bounds v).Upholds g.Attests _
    unfold writeRepeated
    split
    · trivial
    · trivial
    · split
      · next honce =>
        intro _ hclear
        obtain ⟨c', hc'⟩ := (IsClear.of_core hclear hv).single
        rw [if_pos honce] at hsingle
        exact hsingle ((Rule.finds_ask (by decide)).2 hc')
      · next honce =>
        rw [if_neg honce] at hsingle
        exact .of_forall _ fun _ => hsingle rfl

/-- **A node that is written is clear.** -/
theorem write_upholds (hn : g.node? i = some n) : (n.write g i).Upholds g.Attests fun _ => g.IsClear (some i) := by
  have hask : ∀ {q : Question} {r : Ref} {a : q.Answer}, q ≠ .text → g.Means q r a →
      (Rule.ask q r).Finds g.Means a := fun hq h => (Rule.finds_ask hq).2 h
  -- a node in parentheses of its own comes down to itself and is single
  have hgroup : ∀ {opening contents}, (n.core g i).Finds g.Means (some i) → (n.isSingle i).Finds g.Means true →
      (writeGroup i opening contents).Upholds g.Attests fun _ => g.IsClear (some i) := fun hcore hsingle _ hempty =>
      .of_forall _ fun _ => isClear_node hn hcore ((means_node hn (by decide)).1 hempty) hsingle
  cases n with
  | leaf | set => exact .of_forall _ fun _ => isClear_node hn rfl rfl rfl
  | concat cs =>
    have hfollows : (nonEmpty cs).Follows g i .empty fun rs => ∀ r ∈ rs, g.Below i r :=
      nonEmpty_follows fun r hr => below_of_mem_refs hn hr
    refine (hfollows.upholds_finds (by decide)).bind fun rs hrs => ?_
    match rs with
    | [] =>
      exact isClear_node hn (Rule.finds_bind.2 ⟨[], hrs, rfl⟩) (Rule.finds_bind.2 ⟨[], hrs, rfl⟩)
        (Rule.finds_bind.2 ⟨[], hrs, rfl⟩)
    | [r] =>
      rintro _ ⟨⟨u, hu⟩, -, ⟨c, hc⟩⟩
      exact isClear_node hn (Rule.finds_bind.2 ⟨[r], hrs, hask (by decide) hu⟩)
        (Rule.finds_bind.2 ⟨[r], hrs, rfl⟩) (Rule.finds_bind.2 ⟨[r], hrs, hask (by decide) hc⟩)
    | r :: r' :: rest =>
      exact .of_forall _ fun _ => isClear_node hn (Rule.finds_bind.2 ⟨_, hrs, rfl⟩)
        (Rule.finds_bind.2 ⟨_, hrs, rfl⟩) (Rule.finds_bind.2 ⟨_, hrs, rfl⟩)
  | alternation cs =>
    match cs with
    | [] => exact isClear_node hn rfl rfl rfl
    | [r] =>
      rintro _ ⟨⟨u, hu⟩, ⟨b, hb⟩, ⟨c, hc⟩⟩
      exact isClear_node hn (hask (by decide) hu) (hask (by decide) hb) (hask (by decide) hc)
    | _ :: _ :: _ => exact .of_forall _ fun _ => isClear_node hn rfl rfl rfl
  | quantified => exact writeQuantified_upholds hn
  | group c =>
    rintro _ ⟨⟨u, hu⟩, ⟨b, hb⟩, ⟨c', hc'⟩⟩
    refine ⟨?_, ⟨b, (means_node hn (by decide)).2 (hask (by decide) hb)⟩,
      ⟨c', (means_node hn (by decide)).2 (hask (by decide) hc')⟩⟩
    cases habsent : g.isAbsent c with
    | true => exact ⟨some i, (means_node hn (by decide)).2 (by rw [Node.rule, Node.core, habsent]; rfl)⟩
    | false =>
      refine ⟨u, (means_node hn (by decide)).2 ?_⟩
      rw [Node.rule, Node.core, habsent]
      exact hask (by decide) hu
  | enclosed | conditional | modified => exact hgroup rfl rfl

/-- **The rules uphold what answers report.** -/
theorem isUpheld_attests (g : Graph) : g.IsUpheld g.Attests where
  absent q r hr := by
    cases q with
    | text => exact ⟨⟨_, means_absent hr⟩, ⟨_, means_absent hr⟩, ⟨_, means_absent hr⟩⟩
    | core | empty | single => exact means_absent hr
  rule hn q := by
    cases q with
    | text => exact (write_upholds hn).bind fun _ hclear _ => hclear
    | core | empty | single =>
      exact ((Node.rule_follows hn _).upholds_finds (by decide)).mono fun _ h => (means_node hn (by decide)).2 h

end Graph
end RegexBuilder
