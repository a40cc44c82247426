/-
# When a sequence is written

A sequence of several children writes what each child that is not empty comes down to. Of the containers in between
only a quantifier that says once refuses anything: it may apply to an anchor, a comment or options, which take no
quantifier (`Graph.isWritten_iff_core`, `Graph.spared_anchor`). `Rule.EndsIff` says when a rule comes to its end,
whatever stands in its draft.
-/

import RegexBuilder.Proofs.Sharing
import RegexBuilder.Proofs.Unwrapping

namespace RegexBuilder

open List

/-! ### When a rule ends -/

/-- The pattern has a text. -/
def Graph.IsWritten (g : Graph) (r : Ref) : Prop := ∃ t, g.Means .text r t

namespace Rule

/-- The rule comes to its end exactly if `P`, with questions answered by their meanings. -/
def EndsIff {α : Type} (g : Graph) (p : Rule α) (P : Prop) : Prop :=
  ∀ dr, (∃ e x, p.eval (g.meaning e) dr = .ok x) ↔ P

namespace EndsIff

variable {α β : Type} {g : Graph} {P Q : Prop} {p : Rule α} {k : α → Rule β} {r : Ref}

theorem congr (h : p.EndsIff g P) (hPQ : P ↔ Q) : p.EndsIff g Q := fun dr => (h dr).trans hPQ

theorem done (a : α) : (Rule.done a).EndsIff g True := fun dr => iff_true_intro ⟨0, (a, dr), rfl⟩

theorem objection (i : NodeId) (why : Objection) : (Rule.objection i why : Rule α).EndsIff g False :=
  fun _ => iff_false_intro fun ⟨_, _, h⟩ => nomatch h

theorem fault (f : Fault) : (Rule.fault f : Rule α).EndsIff g False :=
  fun _ => iff_false_intro fun ⟨_, _, h⟩ => nomatch h

theorem emit_bind (t : Text) {k : Unit → Rule β} (h : (k ()).EndsIff g P) : (Rule.emit t >>= k).EndsIff g P :=
  fun dr => h (dr.write t)

theorem place_bind {k : Nat → Rule β} (h : ∀ n, (k n).EndsIff g P) : (Rule.place >>= k).EndsIff g P :=
  fun dr => h dr.text.length dr

theorem separate_bind (n : Nat) {k : Unit → Rule β} (h : (k ()).EndsIff g P) : (Rule.separate n >>= k).EndsIff g P :=
  fun dr => h { dr with text := Session.separate n dr.text }

/-- A rule that has ended at a height ends so at every greater one. -/
theorem eval_mono {e e' : Nat} {dr : Draft} {x : α × Draft} (h : p.eval (g.meaning e) dr = .ok x) (he : e ≤ e') :
    p.eval (g.meaning e') dr = .ok x := by
  have hagrees : (g.meaning e).Agrees (· = .exhausted) (g.meaning e') := fun q r hq =>
    Graph.Settled.meaning_eq_of_le (hq _ rfl) he
  rw [eval_eq_of_agrees hagrees p dr (fun f _ hf => nomatch hf.symm.trans h), h]

/-- One rule after another ends if both do. -/
theorem bind (hp : p.EndsIff g P) (hk : ∀ a, (k a).EndsIff g Q) : (p >>= k).EndsIff g (P ∧ Q) := by
  intro dr
  constructor
  · rintro ⟨e, x, h⟩
    rw [eval_bind] at h
    obtain ⟨⟨a, dr'⟩, ha, hx⟩ := bind_eq_ok.1 h
    exact ⟨(hp dr).1 ⟨e, _, ha⟩, (hk a dr').1 ⟨e, x, hx⟩⟩
  · rintro ⟨hP, hQ⟩
    obtain ⟨e, ⟨a, dr'⟩, ha⟩ := (hp dr).2 hP
    obtain ⟨e', x, hx⟩ := (hk a dr').2 hQ
    refine ⟨max e e', x, ?_⟩
    rw [eval_bind, eval_mono ha (Nat.le_max_left e e')]
    exact eval_mono hx (Nat.le_max_right e e')

/-- After a question with a meaning, what is made of that counts. -/
theorem of_means {q : Question} {a : q.Answer} {next : q.Answer → Rule α} (ha : g.Means q r a)
    (h : (next a).EndsIff g P) : (Rule.question q r next).EndsIff g P := by
  obtain ⟨e, fl, ha⟩ := ha
  intro dr
  rw [← h (dr.answered (a, fl))]
  constructor
  · rintro ⟨e', x, hx⟩
    rw [eval] at hx
    obtain ⟨y, hy, hx⟩ := bind_eq_ok.1 hx
    cases Graph.eq_of_meaning_eq_ok hy ha
    exact ⟨e', x, hx⟩
  · rintro ⟨e', x, hx⟩
    have ha' : g.meaning (max e e') q r = .ok (a, fl) :=
      (Graph.settled_of_eq_ok ha).meaning_eq_of_le (Nat.le_max_left e e') ▸ ha
    refine ⟨max e e', x, ?_⟩
    rw [eval, ha']
    exact eval_mono hx (Nat.le_max_right e e')

/-- A question without a meaning has no end. -/
theorem of_not_means {q : Question} {next : q.Answer → Rule α} (h : ∀ a, ¬ g.Means q r a) :
    (Rule.question q r next).EndsIff g False := by
  refine fun dr => iff_false_intro ?_
  rintro ⟨e, x, hx⟩
  rw [eval] at hx
  obtain ⟨⟨a, fl⟩, ha, -⟩ := bind_eq_ok.1 hx
  exact h a ⟨e, fl, ha⟩

/-- After a quiet rule that finds an answer, what is made of that counts. -/
theorem of_finds {a : α} (hp : p.Finds g.Means a) (h : (k a).EndsIff g P) : (p >>= k).EndsIff g P := by
  induction p with
  | done b => exact (show b = a from hp) ▸ h
  | question q r next ih =>
    obtain ⟨-, b, hb, hp⟩ := hp
    exact of_means hb (ih b hp)
  | _ => exact hp.elim

/-- **A pattern can be written exactly if it has a text.** -/
theorem write (r : Ref) : (Rule.write r).EndsIff g (g.IsWritten r) := by
  by_cases h : g.IsWritten r
  · obtain ⟨t, ht⟩ := h
    exact of_means ht ((done ()).congr (iff_of_true trivial ⟨t, ht⟩))
  · exact (of_not_means fun t ht => h ⟨t, ht⟩).congr (iff_of_false id h)

end EndsIff
end Rule

open Rule (EndsIff)

variable {g : Graph} {r u : Ref} {i : NodeId} {n : Node}

/-- A branch ends exactly if the child comes down to something that has a text. -/
theorem writeBranch_endsIff (g : Graph) (r : Ref) :
    (writeBranch g r).EndsIff g (∃ u, g.Means .core r u ∧ g.IsWritten u) := by
  by_cases h : ∃ u, g.Means .core r u
  · obtain ⟨u, hu⟩ := h
    have hiff : g.IsWritten u ↔ ∃ u, g.Means .core r u ∧ g.IsWritten u :=
      ⟨fun h => ⟨u, hu, h⟩, fun ⟨_, hu', h⟩ => hu'.unique hu ▸ h⟩
    refine EndsIff.congr (.of_means hu ?_) hiff
    show EndsIff g (if isOpenAlternation g u then _ else _) _
    split
    · exact .emit_bind _ (((EndsIff.write u).bind fun _ => .emit_bind _ (.done ())).congr (and_iff_left trivial))
    · exact .write u
  · refine EndsIff.congr (.of_not_means fun u hu => h ⟨u, hu⟩) (iff_of_false id ?_)
    rintro ⟨u, hu, -⟩
    exact h ⟨u, hu⟩

theorem writeRest_endsIff (g : Graph) : ∀ rs : List Ref,
    (writeRest g rs).EndsIff g (∀ r ∈ rs, ∃ u, g.Means .core r u ∧ g.IsWritten u)
  | [] => (EndsIff.done ()).congr (iff_of_true trivial fun _ h => nomatch h)
  | r :: rest => by
    refine EndsIff.congr (.place_bind fun n => ?_) forall_mem_cons.symm
    exact (writeBranch_endsIff g r).bind fun _ => .separate_bind n (writeRest_endsIff g rest)

namespace Graph

/-- A node has a text exactly if its rule comes to its end. -/
theorem isWritten_node (hn : g.node? i = some n) {P : Prop} (h : (n.write g i).EndsIff g P) :
    g.IsWritten (some i) ↔ P := by
  have htext : (n.rule g i .text).EndsIff g P :=
    (h.bind fun _ dr => iff_true_intro ⟨0, (dr.text, dr), rfl⟩).congr (and_iff_left trivial)
  rw [← htext {}]
  constructor
  · rintro ⟨t, e, fl, ht⟩
    obtain ⟨e', dr, -, heval⟩ := exists_eval_of_meaning hn ht
    exact ⟨e', _, heval⟩
  · rintro ⟨e, ⟨t, dr⟩, heval⟩
    refine ⟨t, e + 1, dr.subtraction, ?_⟩
    rw [meaning_node hn, answerOf, heval]
    rfl

/-- **Without a cycle a pattern is rendered exactly if it has a text.** -/
theorem exists_render_iff (hg : g.IsTidy) (hr : ¬ g.HasCycleFrom r) : (∃ x, g.render r = .ok x) ↔ g.IsWritten r := by
  obtain ⟨hmeaning, hsettled⟩ := meaning_eq_toldOf hg hr .text
  rw [render_eq_told hg, ← hmeaning]
  rw [← hmeaning] at hsettled
  constructor
  · rintro ⟨x, hx⟩
    obtain ⟨⟨t, fl⟩, ht, -⟩ := bind_eq_ok.1 hx
    exact ⟨t, _, fl, ht⟩
  · rintro ⟨t, e, fl, ht⟩
    refine ⟨⟨t, fl⟩, ?_⟩
    rw [← meaning_eq_of_settled (settled_of_eq_ok ht) hsettled, ht]
    rfl

/-! ### What takes no quantifier -/

/-- An anchor, a comment, or options for what follows. -/
def takesNoQuantifier (g : Graph) (u : Ref) : Bool :=
  match g.deref? u with
  | some (.leaf (.anchor _)) | some (.leaf (.comment _)) => true
  | some (.modified _ _ child) => g.isAbsent child
  | _ => false

/-- Between the pattern and what it comes down to stands a quantifier that says once. -/
inductive SaysOnce (g : Graph) : Ref → Prop
  | quantified {i : NodeId} {b : Bounds} {r : Ref} (hn : g.node? i = some (.quantified b r)) (hb : b.isOnce = true) :
      SaysOnce g (some i)
  | inside {i : NodeId} {n : Node} {r : Ref} (hn : g.node? i = some n) (hwraps : n.Wraps g r) (h : SaysOnce g r) :
      SaysOnce g (some i)

/-- What takes no quantifier is no container. -/
theorem SaysOnce.not_takesNoQuantifier (h : g.SaysOnce (some i)) : g.takesNoQuantifier (some i) = false := by
  have hfalse : ∀ {n r}, g.node? i = some n → n.Wraps g r → g.takesNoQuantifier (some i) = false := by
    intro n r hn hwraps
    have hderef : g.deref? (some i) = some n := hn
    rw [takesNoQuantifier, hderef]
    cases hwraps <;> rfl
  cases h with
  | quantified hn hb => exact hfalse hn (.once hb _)
  | inside hn hwraps h => exact hfalse hn hwraps

end Graph

/-- A quiet rule finds one answer at most. -/
theorem Rule.Finds.unique {α : Type} {p : Rule α} {a b : α} (h : p.Finds g.Means a) (h' : p.Finds g.Means b) :
    a = b := by
  induction p with
  | done c => exact (show c = a from h).symm.trans h'
  | question q r next ih =>
    obtain ⟨-, c, hc, h⟩ := h
    obtain ⟨-, c', hc', h'⟩ := h'
    cases hc.unique hc'
    exact ih c h h'
  | _ => exact h.elim

/-- A node wraps one pattern at most. -/
theorem Node.Wraps.unique {r' : Ref} (h : n.Wraps g r) (h' : n.Wraps g r') : r = r' := by
  cases h with
  | concat h =>
    cases h' with
    | concat h' => exact singleton_inj.1 (h.unique h')
  | alternation | once | group =>
    cases h'
    rfl

theorem quantifierObjection?_iff : quantifierObjection? g (g.deref? u) = .ok none ↔ g.takesNoQuantifier u = false := by
  unfold Graph.takesNoQuantifier
  cases g.deref? u with
  | none => exact iff_of_true rfl rfl
  | some n =>
    cases n with
    | leaf l =>
      cases l with
      | anchor kind => cases hkind : kind.form? <;> simp [quantifierObjection?, hkind]
      | comment => simp [quantifierObjection?]
      | literal | raw | character | charClass | wildcard | backreference => exact iff_of_true rfl rfl
    | modified on off child => cases hchild : g.isAbsent child <;> simp [quantifierObjection?, hchild]
    | set | concat | alternation | quantified | group | enclosed | conditional =>
      exact iff_of_true rfl rfl

/-- A quantifier that says once writes what its child comes down to, unless that takes no quantifier. -/
theorem writeRepeated_endsIff {b : Bounds} (hb : b.isOnce = true) :
    (writeRepeated g i b u).EndsIff g (g.IsWritten u ∧ ¬ g.takesNoQuantifier u = true) := by
  rw [Bool.not_eq_true, ← quantifierObjection?_iff]
  unfold writeRepeated
  cases hobjection : quantifierObjection? g (g.deref? u) with
  | error f => exact (EndsIff.fault f).congr (iff_of_false id fun h => nomatch h.2)
  | ok why =>
    cases why with
    | some why => exact (EndsIff.objection i why).congr (iff_of_false id fun h => nomatch h.2)
    | none =>
      simp only [hb, if_true]
      exact (EndsIff.write u).congr (and_iff_left trivial).symm

namespace Graph

/-! ### Along a chain of containers -/

theorem saysOnce_iff_of_wraps (hn : g.node? i = some n) (hwraps : n.Wraps g r)
    (hquantified : ∀ b c, n ≠ .quantified b c) : g.SaysOnce (some i) ↔ g.SaysOnce r := by
  refine ⟨fun h => ?_, .inside hn hwraps⟩
  cases h with
  | quantified hn' hb => exact absurd (Option.some.inj (hn.symm.trans hn')) (hquantified _ _)
  | inside hn' hwraps' h =>
    cases hn.symm.trans hn'
    exact hwraps.unique hwraps' ▸ h

/-- **A pattern that is not empty has a text exactly if what it comes down to has one,** unless a quantifier that says
once stands between them. -/
theorem isWritten_iff_core (hu : g.Means .core r u) : g.IsFilled r →
    (g.IsWritten r ↔ g.IsWritten u ∧ ¬ (g.SaysOnce r ∧ g.takesNoQuantifier u = true)) := by
  refine core_induction (motive := fun r u => g.IsFilled r →
    (g.IsWritten r ↔ g.IsWritten u ∧ ¬ (g.SaysOnce r ∧ g.takesNoQuantifier u = true))) ?_ ?_ ?_ hu
  · exact fun r hr hfilled => absurd hfilled (not_isFilled_of_deref? hr)
  · refine fun i _ _ => (and_iff_left ?_).symm
    rintro ⟨honce, htakes⟩
    exact Bool.false_ne_true (honce.not_takesNoQuantifier.symm.trans htakes)
  · intro i n r u hn hwraps hu ih hfilled
    -- containers other than a quantifier write the pattern that they wrap
    have hwrites : (∀ b c, n ≠ .quantified b c) → g.IsFilled r → (n.write g i).EndsIff g (g.IsWritten r) →
        (g.IsWritten (some i) ↔ g.IsWritten u ∧ ¬ (g.SaysOnce (some i) ∧ g.takesNoQuantifier u = true)) := by
      intro hquantified hr hends
      rw [isWritten_node hn hends, saysOnce_iff_of_wraps hn hwraps hquantified]
      exact ih hr
    cases hwraps with
    | concat hrs =>
      exact hwrites (fun _ _ => nofun) (isFilled_of_mem_nonEmpty hrs r (mem_singleton.2 rfl))
        (.of_finds hrs (.write r))
    | alternation r =>
      exact hwrites (fun _ _ => nofun) (hfilled.child hn (.inl rfl))
        (((EndsIff.write r).bind fun _ => .done ()).congr (and_iff_left trivial))
    | @once b hb r =>
      have hends : (writeQuantified g i b r).EndsIff g (g.IsWritten u ∧ ¬ g.takesNoQuantifier u = true) := by
        rw [writeQuantified_eq]
        exact .of_means (q := .empty) hfilled (.of_means (q := .core) hu (writeRepeated_endsIff hb))
      rw [isWritten_node hn hends, and_iff_right (SaysOnce.quantified hn hb)]
    | group => exact hwrites (fun _ _ => nofun) (hfilled.child hn (.inr rfl)) (.write r)

/-! ### Sequences -/

/-- The children that are found not to be empty. -/
def visible (g : Graph) (cs : List Ref) : List Ref :=
  cs.filter fun r =>
    match g.isEmpty r with
    | .ok empty => !empty
    | .error _ => false

theorem mem_visible {cs : List Ref} : r ∈ g.visible cs ↔ r ∈ cs ∧ g.isEmpty r = .ok false := by
  rw [visible, mem_filter]
  refine and_congr_right fun _ => ?_
  cases g.isEmpty r with
  | error | ok => simp

theorem nonEmpty_finds {cs : List Ref} (h : ∀ r ∈ cs, ∃ b, g.isEmpty r = .ok b) :
    (nonEmpty cs).Finds g.Means (g.visible cs) := by
  induction cs with
  | nil => rfl
  | cons c cs ih =>
    obtain ⟨⟨b, hb⟩, hcs⟩ := forall_mem_cons.1 h
    refine Rule.finds_bind.2 ⟨b, (Rule.finds_ask (by decide)).2 (isEmpty_eq_ok_iff.1 hb), ?_⟩
    refine Rule.finds_bind.2 ⟨_, ih hcs, ?_⟩
    cases b with
    | true | false => simp [visible, hb]

/-- The pattern is refused because of a quantifier that says once, and what it comes down to is rendered. -/
structure IsSpared (g : Graph) (r : Ref) : Prop where
  once : g.SaysOnce r
  core : ∃ u, g.core r = .ok u ∧ g.takesNoQuantifier u = true ∧ ∃ x, g.render u = .ok x

/-- A sequence writes its only child that is not empty, or what each of several comes down to. -/
theorem isWritten_concat {cs rs : List Ref} (hn : g.node? i = some (.concat cs))
    (hrs : (nonEmpty cs).Finds g.Means rs) : g.IsWritten (some i) ↔
      if 2 ≤ rs.length then ∀ r ∈ rs, ∃ u, g.Means .core r u ∧ g.IsWritten u else ∀ r ∈ rs, g.IsWritten r := by
  refine isWritten_node hn (.of_finds hrs ?_)
  match rs with
  | [] => exact (EndsIff.done ()).congr (iff_of_true trivial fun _ h => nomatch h)
  | [r] => exact (EndsIff.write r).congr (forall_mem_singleton (p := g.IsWritten)).symm
  | r :: r' :: rest =>
    rw [if_pos (by simp), forall_mem_cons]
    exact (writeBranch_endsIff g r).bind fun _ => writeRest_endsIff g (r' :: rest)

theorem HasCycleFrom.of_down (h : g.HasCycleFrom u) (hdown : g.Down r u) : g.HasCycleFrom r := by
  obtain ⟨j, ⟨k, rfl, hkj⟩, hj⟩ := h
  obtain ⟨m, hm⟩ := exists_node?_of_reflTransGen hkj (exists_node?_of_transGen hj)
  obtain ⟨l, -, rfl, -, hlk⟩ := hdown k m rfl hm
  exact ⟨j, ⟨l, rfl, hlk.trans hkj⟩, hj⟩

theorem not_hasCycleFrom_core (hr : ¬ g.HasCycleFrom r) (hu : g.Means .core r u) : ¬ g.HasCycleFrom u := by
  obtain ⟨e, fl, hu⟩ := hu
  exact fun h => hr (h.of_down (sound_of_meaning_eq_ok e .core r _ hu))

/-- **What a pattern comes down to is rendered exactly if the pattern is, or is spared.** -/
theorem exists_core_isWritten_iff (hg : g.IsTidy) (hr : ¬ g.HasCycleFrom r) (hfilled : g.IsFilled r) :
    (∃ u, g.Means .core r u ∧ g.IsWritten u) ↔ (∃ x, g.render r = .ok x) ∨ g.IsSpared r := by
  constructor
  · rintro ⟨u, hu, hwritten⟩
    have hcycle := not_hasCycleFrom_core hr hu
    by_cases hspared : g.SaysOnce r ∧ g.takesNoQuantifier u = true
    · exact .inr ⟨hspared.1, u, core_eq_ok_iff.2 hu, hspared.2, (exists_render_iff hg hcycle).2 hwritten⟩
    · exact .inl ((exists_render_iff hg hr).2 ((isWritten_iff_core hu hfilled).2 ⟨hwritten, hspared⟩))
  · rintro (⟨x, hx⟩ | ⟨-, u, hu, -, x, hx⟩)
    · obtain ⟨u, hu⟩ := (isClear_of_render hx).core
      exact ⟨u, hu, ((isWritten_iff_core hu hfilled).1 ((exists_render_iff hg hr).1 ⟨x, hx⟩)).1⟩
    · have hu := core_eq_ok_iff.1 hu
      exact ⟨u, hu, (exists_render_iff hg (not_hasCycleFrom_core hr hu)).1 ⟨x, hx⟩⟩

theorem IsSpared.not_render (h : g.IsSpared r) (hg : g.IsTidy) (hr : ¬ g.HasCycleFrom r) (hfilled : g.IsFilled r) :
    ¬ ∃ x, g.render r = .ok x := by
  obtain ⟨honce, u, hu, htakes, -⟩ := h
  intro hx
  have hwritten := (exists_render_iff hg hr).1 hx
  exact ((isWritten_iff_core (core_eq_ok_iff.1 hu) hfilled).1 hwritten).2 ⟨honce, htakes⟩

/-- **When a sequence is rendered.** Let no cycle be reached from a sequence of a tidy graph, and let it be known of
each child whether it is empty. Then the sequence is rendered exactly if each child that is not empty is rendered on
its own or, where several children are not empty, is spared: it comes down to an anchor, a comment or options for what
follows, through containers one of which is a quantifier that says once. A child that is spared is not rendered on
its own. So it is rendered exactly if all children that are not empty are, but for the sequences in which several
children are not empty, each of them is rendered or spared, and one of them is spared. -/
theorem render_concat_iff (hg : g.IsTidy) {cs : List Ref} (hn : g.node? i = some (.concat cs))
    (hi : ¬ g.HasCycleFrom (some i)) (hempty : ∀ r ∈ cs, ∃ b, g.isEmpty r = .ok b) :
    ((∃ x, g.render (some i) = .ok x) ↔ ∀ r ∈ cs, g.isEmpty r = .ok false →
      (∃ x, g.render r = .ok x) ∨ 2 ≤ (g.visible cs).length ∧ g.IsSpared r) ∧
    (∀ r ∈ cs, g.isEmpty r = .ok false → g.IsSpared r → ¬ ∃ x, g.render r = .ok x) ∧
    (((∃ x, g.render (some i) = .ok x) ↔ ∀ r ∈ cs, g.isEmpty r = .ok false → ∃ x, g.render r = .ok x) ↔
      ¬ (2 ≤ (g.visible cs).length ∧
        (∀ r ∈ cs, g.isEmpty r = .ok false → (∃ x, g.render r = .ok x) ∨ g.IsSpared r) ∧
        ∃ r ∈ cs, g.isEmpty r = .ok false ∧ g.IsSpared r)) := by
  have hchild : ∀ r ∈ cs, ¬ g.HasCycleFrom r := not_hasCycleFrom_of_mem_refs hn hi
  have hspared : ∀ r ∈ cs, g.isEmpty r = .ok false → g.IsSpared r → ¬ ∃ x, g.render r = .ok x := fun r hr hfilled h =>
    h.not_render hg (hchild r hr) (isEmpty_eq_ok_iff.1 hfilled)
  have hrender : (∃ x, g.render (some i) = .ok x) ↔ ∀ r ∈ cs, g.isEmpty r = .ok false →
      (∃ x, g.render r = .ok x) ∨ 2 ≤ (g.visible cs).length ∧ g.IsSpared r := by
    rw [exists_render_iff hg hi, isWritten_concat hn (nonEmpty_finds hempty)]
    split
    · next hseveral =>
      simp only [mem_visible, and_imp, hseveral, true_and]
      refine forall₂_congr fun r hr => forall_congr' fun hfilled => ?_
      exact exists_core_isWritten_iff hg (hchild r hr) (isEmpty_eq_ok_iff.1 hfilled)
    · next hseveral =>
      simp only [mem_visible, and_imp, hseveral, false_and, or_false]
      exact forall₂_congr fun r hr => forall_congr' fun _ => (exists_render_iff hg (hchild r hr)).symm
  refine ⟨hrender, hspared, ?_⟩
  rw [hrender]
  constructor
  · rintro hiff ⟨hseveral, hall, r, hr, hfilled, hrspared⟩
    refine hspared r hr hfilled hrspared (hiff.1 (fun r hr hfilled => ?_) r hr hfilled)
    exact (hall r hr hfilled).imp_right fun h => ⟨hseveral, h⟩
  · intro hnot
    refine ⟨fun hall r hr hfilled => ?_, fun hall r hr hfilled => .inl (hall r hr hfilled)⟩
    rcases hall r hr hfilled with h | ⟨hseveral, h⟩
    · exact h
    · have hor : ∀ r ∈ cs, g.isEmpty r = .ok false → (∃ x, g.render r = .ok x) ∨ g.IsSpared r :=
        fun r hr hfilled => (hall r hr hfilled).imp_right And.right
      exact absurd ⟨hseveral, hor, r, hr, hfilled, h⟩ hnot

/-- The anchor `^` once, before `a`. -/
def anchorOnce : Graph :=
  ⟨#[.leaf (.anchor .lineStart), .quantified ⟨1, 1, true⟩ (some 0), .leaf (.literal "a"), .concat [some 1, some 2]]⟩

theorem anchorOnce_isTidy : anchorOnce.IsTidy := by
  refine ⟨fun h => ?_, fun h => ?_, fun h _ => ?_⟩ <;> simpa [anchorOnce] using mem_nodes h

theorem not_hasCycleFrom_anchorOnce (r : Ref) : ¬ anchorOnce.HasCycleFrom r := not_hasCycleFrom_of_lt (by decide) r

theorem isEmpty_anchorOnce : ∀ r ∈ [some 1, some 2], anchorOnce.isEmpty r = .ok false := by
  decide +kernel

/-- Both children are written: `a` on its own, and `^` because it is spared. -/
theorem render_concat_iff_anchorOnce : anchorOnce.IsSpared (some 1) ∧ (∃ x, anchorOnce.render (some 3) = .ok x) ∧
    ¬ ∃ x, anchorOnce.render (some 1) = .ok x := by
  obtain ⟨hiff, hrefused, -⟩ := render_concat_iff anchorOnce_isTidy (i := 3) rfl (not_hasCycleFrom_anchorOnce _)
    fun r hr => ⟨false, isEmpty_anchorOnce r hr⟩
  have hspared : anchorOnce.IsSpared (some 1) :=
    ⟨.quantified (i := 1) rfl rfl, some 0, by decide +kernel, rfl, ⟨"^", false⟩, by decide +kernel⟩
  refine ⟨hspared, hiff.2 fun r hr _ => ?_, hrefused _ (by decide) (isEmpty_anchorOnce _ (by decide)) hspared⟩
  rcases mem_pair.1 hr with rfl | rfl
  · exact .inr ⟨by decide +kernel, hspared⟩
  · exact .inl ⟨⟨"a", false⟩, by decide +kernel⟩

/-- **A refused child in a sequence that is rendered:** `^` once is refused, and before `a` it is not. -/
theorem spared_anchor :
    anchorOnce.IsTidy ∧ ¬ anchorOnce.HasCycleFrom (some 3) ∧ anchorOnce.node? 3 = some (.concat [some 1, some 2]) ∧
      (∀ r ∈ [some 1, some 2], anchorOnce.isEmpty r = .ok false) ∧
      anchorOnce.render (some 1) = .error (.invalid 1 (.quantifiedAnchor "^")) ∧
      anchorOnce.render (some 3) = .ok ⟨"^a", false⟩ :=
  ⟨anchorOnce_isTidy, not_hasCycleFrom_anchorOnce _, rfl, isEmpty_anchorOnce, by decide +kernel, by decide +kernel⟩

end Graph
end RegexBuilder
