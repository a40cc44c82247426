/-
# The text of a pattern is faithful to it

The groups that the writer adds are there where the grammar needs them, and no suffix, bar or digit binds to something
else than in the tree (`Graph.render_faithful`).

A rule *adds* texts of a kind if what it writes behind any draft is such a text (`Rule.Adds`). Only the rest of a
sequence looks at the draft, to keep a digit apart from an escape (`writeRest_yields`). `Node.write_yields` has one
case for each kind of node, and `Graph.IsWritable.renders` follows by induction on the height.
-/

import RegexBuilder.Proofs.Rendered
import RegexBuilder.Proofs.Sharing

namespace RegexBuilder

open List
open Shape (isNothing one needBranches needSequence)

/-! ### What a rule adds -/

namespace Rule

/-- If the rule answers, it has added a text that satisfies `P`, whatever stood before. -/
def Adds {α : Type} (A : Oracle) (P : Text → Prop) (p : Rule α) : Prop :=
  ∀ dr : Draft, p.Yields A (fun _ dr' => ∃ t, dr'.text = dr.text ++ t ∧ P t) dr

namespace Adds

variable {α β : Type} {A : Oracle} {P P' : Text → Prop} {p : Rule α}

theorem done {a : α} (h : P []) : (Rule.done a).Adds A P := fun _ =>
  .done ⟨[], (List.append_nil _).symm, h⟩

theorem emit {t : Text} (h : P t) : (Rule.emit t).Adds A P := fun dr _ _ heval => by
  cases heval
  exact ⟨t, rfl, h⟩

theorem mono (h : p.Adds A P) (hP : ∀ t, P t → P' t) : p.Adds A P' := fun dr =>
  (h dr).mono fun _ _ ⟨t, ht, hPt⟩ => ⟨t, ht, hP t hPt⟩

/-- What two rules add one after another. -/
theorem append {k : α → Rule β} (h : p.Adds A P) (hk : ∀ a, (k a).Adds A P') :
    (p >>= k).Adds A (fun t => ∃ u v, t = u ++ v ∧ P u ∧ P' v) := by
  refine fun dr => (h dr).bind ?_
  rintro a dr' ⟨u, hu, hPu⟩
  refine (hk a dr').mono ?_
  rintro b dr'' ⟨v, hv, hPv⟩
  exact ⟨u ++ v, by rw [hv, hu, append_assoc], u, v, rfl, hPu, hPv⟩

/-- A question that is not for a text adds nothing. -/
theorem ask_bind {q : Question} (hq : q ≠ .text) {r : Ref} {k : q.Answer → Rule α}
    (h : ∀ x, A q r = .ok x → (k x.1).Adds A P) : (Rule.ask q r >>= k).Adds A P := by
  intro dr
  refine .question fun x hx => ?_
  rw [← dr.text_answered hq x]
  exact h x hx (dr.answered x)

theorem yields (h : p.Adds A P) : p.Yields A (fun _ dr => P dr.text) {} :=
  (h {}).mono fun _ dr ⟨t, ht, hP⟩ => by rwa [show dr.text = t from ht]

theorem ofResult {i : NodeId} {x : Except Objection α} {k : α → Rule β}
    (h : ∀ a, x = .ok a → (k a).Adds A P) : (Rule.ofResult i x >>= k).Adds A P := by
  cases x with
  | error => exact fun _ => .objection
  | ok a => exact h a rfl

/-- Parentheses around what a rule adds. -/
theorem parenthesized {p : Rule Unit} (h : p.Adds A P) (opening : Text) :
    (do Rule.emit opening; p; Rule.emit ")" : Rule Unit).Adds A
      (fun t => ∃ u, t = opening ++ u ++ ")" ∧ P u) := by
  have hclose : (Rule.emit ")").Adds A (· = ")") := .emit rfl
  have hopening : (Rule.emit opening).Adds A (· = opening) := .emit rfl
  refine (hopening.append fun _ => h.append fun _ => hclose).mono ?_
  rintro _ ⟨_, _, rfl, rfl, u, _, rfl, hu, rfl⟩
  exact ⟨u, (append_assoc ..).symm, hu⟩

end Adds
end Rule

/-! ### The rules that nodes share -/

/-- The texts that are the meaning of patterns render them. -/
def Graph.Renders (g : Graph) (nested : Bool) (e : Nat) : Prop :=
  ∀ r x, ¬ g.HasCycleFrom r → g.meaning e .text r = .ok x → g.Rendered nested r x.1

section

variable {g : Graph} {nested : Bool} {e : Nat} {r : Ref}

theorem write_adds (he : g.Renders nested e) (hr : ¬ g.HasCycleFrom r) :
    (Rule.write r).Adds (g.meaning e) (g.Rendered nested r) := fun _ =>
  .question fun x hx => .done ⟨x.1, rfl, he r x hr hx⟩

theorem write_adds_nil (hr : g.deref? r = none) : (Rule.write r).Adds (g.meaning e) (· = []) := by
  refine fun dr => .question fun x hx => .done ⟨x.1, rfl, ?_⟩
  cases e with
  | zero => cases hx
  | succ =>
    rw [Graph.meaning_absent hr] at hx
    cases hx
    rfl

/-- Only an open alternation gets a group, and needs it. -/
theorem writeBranch_adds (he : g.Renders nested e) (hr : ¬ g.HasCycleFrom r) : (writeBranch g r).Adds (g.meaning e)
      (g.RenderedBranch nested (needSequence (Shape.parts (g.flattened r))) r) := by
  refine .ask_bind (by decide) fun x hx => ?_
  obtain ⟨hflat, hcycle, hcore⟩ := Graph.core_eq hr hx
  have hneed := Shape.needSequence_parts (g.flattened r)
  split
  · next hopen =>
    have hlength := Graph.two_le_length_of_isOpenAlternation hcycle hopen
    refine ((write_adds he hcycle).parenthesized "(?:").mono ?_
    rintro _ ⟨t, rfl, ht⟩
    obtain ⟨x, hwrites, -, herase⟩ := ht.plain
    rw [hflat] at hlength hwrites
    rw [if_neg (by omega)] at hneed
    have hfilled := Bool.eq_false_iff.1 (Shape.isNothing_of_length hlength)
    exact ⟨[x], hneed ▸ hwrites, fun h => (herase h).trans hflat, iff_of_false hfilled (cons_ne_nil _ _)⟩
  · next hopen =>
    refine (write_adds he hcycle).mono fun t ht => ?_
    obtain ⟨xs, hwrites, herase, hempty⟩ := ht.isBranch hcore (Bool.eq_false_iff.2 hopen)
    rw [hflat] at hwrites hempty
    exact ⟨xs, hwrites.mono fun _ => by omega, fun h => (herase h).trans hflat, hempty⟩

/-- Only what takes no suffix gets a group. -/
theorem writeSingle_adds (hg : g.IsChecked) (he : g.Renders nested e) (hr : ¬ g.HasCycleFrom r)
    (hcore : g.IsCore r) (hfilled : isNothing (g.flattened r) = false) :
    (writeSingle r).Adds (g.meaning e) (g.RenderedWhole nested
      (needBranches (g.flattened r) + if Shape.takesSuffix (g.flattened r) then 0 else 1) r) := by
  refine .ask_bind (by decide) ?_
  rintro ⟨single, fl⟩ hsingle
  cases single with
  | true =>
    refine (write_adds he hr).mono fun t ht => ?_
    obtain ⟨x, hwrites, hx, herase⟩ := ht.whole ⟨e, fl, hsingle⟩ hfilled
    exact ⟨x, hwrites.mono fun _ => Nat.le_add_right _ _, hx, herase⟩
  | false =>
    rw [hg.takesSuffix_of_not_single hr hcore hfilled hsingle]
    refine ((write_adds he hr).parenthesized "(?:").mono ?_
    rintro _ ⟨t, rfl, ht⟩
    exact ht.plain

variable {P : Text → Prop} {contents : Rule Unit} {opening t : Text} {rs cs rest : List Ref} {n : Node} {r' : Ref}
  {D : Prop}

/-- A node writes nothing if it is empty, and its contents if not. -/
theorem unlessEmpty_adds {i : NodeId} (hi : ¬ g.HasCycleFrom (some i))
    (hnil : isNothing (g.flattened (some i)) = true → P [])
    (h : ∀ fl, g.meaning e .empty (some i) = .ok (false, fl) → contents.Adds (g.meaning e) P) :
    (do if ← Rule.ask .empty (some i) then return () else contents : Rule Unit).Adds (g.meaning e) P := by
  refine .ask_bind (by decide) ?_
  rintro ⟨empty, fl⟩ hempty
  cases empty with
  | true => exact .done (hnil (Graph.empty_eq hi hempty).symm)
  | false => exact h fl hempty

/-- A group is written as nothing, or with parentheses around its contents. -/
theorem writeGroup_adds {i : NodeId} (hi : ¬ g.HasCycleFrom (some i))
    (hnil : isNothing (g.flattened (some i)) = true → P []) (h : isNothing (g.flattened (some i)) = false →
      contents.Adds (g.meaning e) (fun t => P (opening ++ t ++ ")"))) :
    (writeGroup i opening contents).Adds (g.meaning e) P := by
  refine unlessEmpty_adds hi hnil fun fl hempty => ?_
  refine ((h (Graph.empty_eq hi hempty).symm).parenthesized opening).mono ?_
  rintro _ ⟨t, rfl, ht⟩
  exact ht

/-- The rest of the branches continues the branches before it. -/
theorem writeBranches_adds (he : g.Renders nested e) (hrs : ∀ r ∈ rs, ¬ g.HasCycleFrom r) :
    (writeBranches rs).Adds (g.meaning e) (fun t => ∀ {k bs u}, Writes nested (g.Counts nested) k bs u →
      ∃ cs, Writes nested (g.Counts nested) (k + needBranches (rs.flatMap g.flattened)) (bs ++ cs) (u ++ t) ∧
        (nested = false → eraseBranches cs = rs.flatMap g.flattened) ∧ rs.length ≤ cs.length) := by
  induction rs with
  | nil =>
    refine .done fun {k bs u} h => ⟨[], ?_, fun _ => rfl, Nat.le_refl _⟩
    rw [List.append_nil, List.append_nil]
    exact h
  | cons r rs ih =>
    have hbar : (Rule.emit "|").Adds (g.meaning e) (· = "|") := .emit rfl
    have hwrite := write_adds he (hrs r mem_cons_self)
    have hrest := ih fun r' hr' => hrs r' (mem_cons_of_mem _ hr')
    refine (hbar.append fun _ => hwrite.append fun _ => hrest).mono ?_
    rintro _ ⟨_, _, rfl, rfl, t, v, rfl, ⟨cs, hcs, herase, -⟩, hv⟩ k bs u h
    obtain ⟨ds, hds, herase', hlength⟩ := hv (h.bar hcs)
    have hpos := hcs.length_pos
    refine ⟨cs ++ ds, ?_, fun h => ?_, ?_⟩
    · rw [← append_assoc, ← append_assoc, ← append_assoc, flatMap_cons,
        Shape.needBranches_append, ← Nat.add_assoc]
      exact hds
    · rw [eraseBranches_append, herase h, herase' h, flatMap_cons]
    · rw [length_cons, length_append]
      omega

/-- **The rest of a sequence continues the pieces before it.** Each of its children has a piece. -/
theorem writeRest_yields (he : g.Renders nested e) (hrs : ∀ r ∈ rs, ¬ g.HasCycleFrom r)
    (hfilled : ∀ r ∈ rs, isNothing (g.flattened r) = false) {dr : Draft} {k : Nat} {xs : List Item}
    (h : Writes nested (g.Counts nested) k [xs] dr.text) :
    (writeRest g rs).Yields (g.meaning e) (fun _ dr' => ∃ ys, Writes nested (g.Counts nested)
        (k + needSequence (rs.flatMap (Shape.parts ∘ g.flattened))) [ys] dr'.text ∧
      (nested = false → erasedParts ys = erasedParts xs ++ rs.flatMap (Shape.parts ∘ g.flattened)) ∧
      xs.length + rs.length ≤ ys.length) dr := by
  induction rs generalizing dr k xs with
  | nil => exact .done ⟨xs, h, fun _ => by rw [flatMap_nil, List.append_nil], Nat.le_refl _⟩
  | cons r rs ih =>
    show (writeBranch g r >>= fun _ => _).Yields (g.meaning e) _ dr
    refine (writeBranch_adds he (hrs r mem_cons_self) dr).bind ?_
    rintro _ dr' ⟨t, ht, ys, hys, herase, hempty⟩
    have hpos : 0 < ys.length := length_pos_iff.2 fun hnil =>
      Bool.eq_false_iff.1 (hfilled r mem_cons_self) (hempty.2 hnil)
    -- a digit may run into the escape that the draft ends in; then a plain group is put around that
    obtain ⟨zs, hzs, hparts, hlength⟩ := h.separate hys
    rw [← ht] at hzs
    have htail : (writeRest g rs).Yields (g.meaning e) _
        { dr' with text := Session.separate dr.text.length dr'.text } :=
      ih (fun r' hr' => hrs r' (mem_cons_of_mem _ hr')) (fun r' hr' => hfilled r' (mem_cons_of_mem _ hr')) hzs
    refine htail.mono ?_
    rintro _ dr'' ⟨ws, hws, hparts', hlength'⟩
    refine ⟨ws, ?_, fun h => ?_, ?_⟩
    · rw [flatMap_cons, Shape.needSequence_append, ← Nat.add_assoc]
      exact hws
    · rw [hparts' h, erasedParts_append, hparts, ← parts_eraseBranch ys, herase h, flatMap_cons, append_assoc]
      rfl
    · rw [length_append] at hlength'
      rw [length_cons]
      omega

/-! ### Sequences and alternations -/

variable {i : NodeId}

theorem Graph.not_isSingle (hn : g.node? i = some n)
    (h : ∀ e, (n.isSingle i).Yields (g.meaning e) (fun b _ => b = false) {}) : ¬ g.IsSingle (some i) := by
  rintro ⟨e, fl, hsingle⟩
  obtain ⟨e', dr, -, heval⟩ := exists_eval_of_meaning hn hsingle
  cases h e' _ _ heval

/-- Several children that are not nothing are not single. -/
theorem Graph.not_isSingle_concat (hn : g.node? i = some (.concat cs)) (hi : ¬ g.HasCycleFrom (some i))
    (hfilled : g.filled cs = r :: r' :: rest) : ¬ g.IsSingle (some i) := by
  refine not_isSingle hn fun e => ?_
  refine (nonEmpty_yields (meaning_flattens e) (not_hasCycleFrom_of_mem_refs hn hi) {}).bind ?_
  rintro rs dr ⟨hrs, -⟩
  obtain rfl : rs = r :: r' :: rest := hrs.trans hfilled
  exact .done rfl

/-- Pieces for several children render their sequence. -/
theorem Graph.rendered_sequence (hn : g.node? i = some (.concat cs)) (hi : ¬ g.HasCycleFrom (some i))
    (hfilled : g.filled cs = r :: r' :: rest) {ys : List Item} (hys : Writes nested (g.Counts nested)
      (needSequence ((r :: r' :: rest).flatMap (Shape.parts ∘ g.flattened))) [ys] t) (hlength : 2 ≤ ys.length)
    (hparts : nested = false → erasedParts ys = (r :: r' :: rest).flatMap (Shape.parts ∘ g.flattened)) :
    g.Rendered nested (some i) t := by
  have hflat : g.flattened (some i) = [(r :: r' :: rest).flatMap (Shape.parts ∘ g.flattened)] := by
    rw [flattened_node hn hi, g.flat_concat, hfilled, Shape.sequence_of_length_ne_one (by simp), flatMap_map]
    rfl
  have hnothing : isNothing (g.flattened (some i)) = false := by
    rw [flattened_node hn hi, g.isNothing_concat, hfilled]
    rfl
  have hwrites : Writes nested (g.Counts nested) (needBranches (g.flattened (some i))) [ys] t := by
    rw [hflat]
    exact hys
  refine .of_several hwrites (fun h => ?_) hnothing ?_ (fun _ => ⟨ys, rfl⟩) ?_ (not_isSingle_concat hn hi hfilled)
  · rw [eraseBranches_singleton, eraseBranch_of_length_ne_one (by omega), hparts h, hflat]
  · rintro h
    cases singleton_inj.1 h
    exact absurd hlength (by decide)
  · rintro x h
    cases singleton_inj.1 h
    exact absurd hlength (by simp)

/-- **A sequence is rendered.** -/
theorem writeConcat_yields (he : g.Renders nested e) (hn : g.node? i = some (.concat cs))
    (hi : ¬ g.HasCycleFrom (some i)) : ((Node.concat cs).write g i).Yields (g.meaning e)
      (fun _ dr => g.Rendered nested (some i) dr.text) {} := by
  have hcs : ∀ c ∈ cs, ¬ g.HasCycleFrom c := Graph.not_hasCycleFrom_of_mem_refs hn hi
  refine (nonEmpty_yields (Graph.meaning_flattens e) hcs {}).bind ?_
  rintro rs dr ⟨hrs, hdr⟩
  have hdr : dr.text = [] := hdr
  have hmem : ∀ r ∈ rs, ¬ g.HasCycleFrom r ∧ isNothing (g.flattened r) = false := by
    rintro r hr
    rw [hrs] at hr
    exact ⟨hcs r (mem_filter.1 hr).1, g.isNothing_of_mem_filled hr⟩
  match rs, hrs, hmem with
  | [], hrs, _ =>
    refine .done ?_
    rw [hdr]
    refine .of_nothing ?_
    rw [Graph.flattened_node hn hi, g.isNothing_concat, ← hrs]
    rfl
  | [r], hrs, hmem =>
    refine (write_adds he (hmem r mem_cons_self).1 dr).mono ?_
    rintro _ dr' ⟨t, ht, hrendered⟩
    rw [ht, hdr]
    exact hrendered.of_seesThrough hn hi (.concat hrs.symm)
  | r :: r' :: rest, hrs, hmem =>
    show (writeBranch g r >>= fun _ => writeRest g (r' :: rest)).Yields (g.meaning e) _ dr
    refine (writeBranch_adds he (hmem r mem_cons_self).1 dr).bind ?_
    rintro _ dr' ⟨t, ht, xs, hxs, herase, hempty⟩
    rw [hdr, List.nil_append] at ht
    have hpos : 0 < xs.length := length_pos_iff.2 fun hnil =>
      Bool.eq_false_iff.1 (hmem r mem_cons_self).2 (hempty.2 hnil)
    have htail := writeRest_yields he (fun c hc => (hmem c (mem_cons_of_mem _ hc)).1)
      (fun c hc => (hmem c (mem_cons_of_mem _ hc)).2) (ht.symm ▸ hxs)
    refine htail.mono ?_
    rintro _ dr'' ⟨ys, hys, hparts, hlength⟩
    -- with two pieces or more the branch is a sequence and not the flattened tree of one child
    rw [length_cons] at hlength
    rw [← Shape.needSequence_append] at hys
    refine Graph.rendered_sequence hn hi hrs.symm hys (by omega) fun h => ?_
    rw [hparts h, ← parts_eraseBranch xs, herase h]
    rfl

/-- **An alternation is rendered.** -/
theorem writeAlternation_adds (he : g.Renders nested e) (hn : g.node? i = some (.alternation cs))
    (hi : ¬ g.HasCycleFrom (some i)) :
    ((Node.alternation cs).write g i).Adds (g.meaning e) (g.Rendered nested (some i)) := by
  have hcs : ∀ c ∈ cs, ¬ g.HasCycleFrom c := Graph.not_hasCycleFrom_of_mem_refs hn hi
  have hflat := Graph.flattened_node hn hi
  match cs, hn, hcs, hflat with
  | [], _, _, hflat => exact .done (.of_nothing (by rw [hflat]; rfl))
  | [r], hn, hcs, _ =>
    have hnil : (writeBranches []).Adds (g.meaning e) (· = []) := .done rfl
    refine ((write_adds he (hcs r mem_cons_self)).append fun _ => hnil).mono ?_
    rintro _ ⟨t, _, rfl, ht, rfl⟩
    rw [List.append_nil]
    exact ht.of_seesThrough hn hi (.alternation r)
  | r :: r' :: rest, hn, hcs, hflat =>
    have hwrite := write_adds he (hcs r mem_cons_self)
    have hrest := writeBranches_adds he fun c hc => hcs c (mem_cons_of_mem _ hc)
    refine (hwrite.append fun _ => hrest).mono ?_
    rintro _ ⟨t, u, rfl, ⟨bs, hbs, herase, -⟩, hu⟩
    obtain ⟨ds, hds, herase', hlength⟩ := hu hbs
    have hpos := hbs.length_pos
    have hlength : 2 ≤ (bs ++ ds).length := by
      rw [length_cons] at hlength
      rw [length_append]
      omega
    have hwrites : Writes nested (g.Counts nested) (needBranches (g.flattened (some i))) (bs ++ ds) (t ++ u) := by
      rw [hflat, Node.flat, flatMap_cons, Shape.needBranches_append]
      exact hds
    refine .of_several hwrites (fun h => ?_) ?_ ?_ (fun hopen => ?_) ?_ (Graph.not_isSingle hn fun e => .done rfl)
    · rw [eraseBranches_append, herase h, herase' h, hflat]
      rfl
    · rw [hflat, g.isNothing_alternation]
    · intro h
      rw [h] at hlength
      exact absurd hlength (by decide)
    · have hr : g.deref? (some i) = some (.alternation (r :: r' :: rest)) := hn
      rw [isOpenAlternation, hr] at hopen
      cases hopen
    · intro x h
      rw [h] at hlength
      exact absurd hlength (by simp)

/-! ### Quantifiers -/

variable {b : Bounds} {c : Ref}

section

variable (hn : g.node? i = some (.quantified b c))

include hn

/-- Whether a quantifier is empty is said only if there is no objection to its bounds. -/
theorem Graph.objection?_eq_none {empty fl : Bool}
    (h : g.meaning e .empty (some i) = .ok (empty, fl)) : b.objection? = none := by
  obtain ⟨e', dr, -, heval⟩ := exists_eval_of_meaning hn h
  cases hb : b.objection? with
  | none => rfl
  | some why =>
    have hrule : (Node.quantified b c).isEmpty g i = Rule.object i why := by
      rw [Node.isEmpty, hb]
    rw [Node.rule, hrule] at heval
    cases heval

theorem Graph.not_isSingle_quantified
    (hi : ¬ g.HasCycleFrom (some i)) (hfilled : isNothing (g.flattened (some i)) = false)
    (honce : b.isOnce = false) : ¬ g.IsSingle (some i) := by
  refine not_isSingle hn fun e => .question ?_
  rintro ⟨empty, fl⟩ hempty
  obtain rfl : empty = false := (empty_eq hi hempty).trans hfilled
  show (if b.isOnce then Rule.ask .single c else pure false : Rule Bool).Yields _ _ _
  rw [honce]
  exact .done rfl

/-- A suffix behind one piece renders the quantifier. -/
theorem Graph.rendered_repeated (hi : ¬ g.HasCycleFrom (some i))
    (hfilled : isNothing (g.flattened (some i)) = false) (honce : b.isOnce = false) (hb : b.objection? = none) {u : Ref}
    (hu : g.flattened u = g.flattened c) (ht : g.RenderedWhole nested
      (needBranches (g.flattened u) + if Shape.takesSuffix (g.flattened u) then 0 else 1) u t) :
    g.Rendered nested (some i) (t ++ b.suffix) := by
  obtain ⟨x, hwrites, hx, herase⟩ := ht
  have hpieces := hwrites.repeated hx (Bounds.isLegible_times hb)
  have hflat := (flattened_quantified hn hi hfilled).2 honce
  have hwrites' : Writes nested (g.Counts nested) (needBranches (g.flattened (some i))) [[x.repeated b]]
      (t ++ b.suffix) := by
    rw [hflat, ← hu]
    exact hpieces
  refine .of_several hwrites' (fun h => ?_) hfilled (by simp) (fun _ => ⟨_, rfl⟩) ?_
    (not_isSingle_quantified hn hi hfilled honce)
  · rw [eraseBranches_singleton, eraseBranch_singleton, Item.erase, herase h, hu, hflat]
    rfl
  · rintro y h
    cases h
    rfl

end

/-- **A quantifier is rendered.** -/
theorem writeQuantified_adds (hg : g.IsChecked) (he : g.Renders nested e)
    (hn : g.node? i = some (.quantified b c)) (hi : ¬ g.HasCycleFrom (some i)) :
    (writeQuantified g i b c).Adds (g.meaning e) (g.Rendered nested (some i)) := by
  have hc : ¬ g.HasCycleFrom c := Graph.not_hasCycleFrom_of_mem_refs hn hi c (mem_singleton.2 rfl)
  refine unlessEmpty_adds hi .of_nothing fun fl hempty => .ask_bind (by decide) ?_
  rintro ⟨u, fl'⟩ hcore
  have hfilled := (Graph.empty_eq hi hempty).symm
  have hchild := (Graph.flattened_quantified hn hi hfilled).1
  obtain ⟨hu, hcycle, hself⟩ := Graph.core_eq hc hcore
  split
  · exact fun _ => .fault
  · exact fun _ => .objection
  · split
    · next honce =>
      -- the core is written and not the child, but what renders the one renders the other
      refine (write_adds he hcycle).mono fun t ht => ?_
      exact (ht.of_core hc hcore).of_seesThrough hn hi (.once honce c)
    · next honce =>
      have hb := Graph.objection?_eq_none hn hempty
      have hsuffix : (Rule.emit b.suffix).Adds (g.meaning e) (· = b.suffix) := .emit rfl
      have hwrite := writeSingle_adds hg he hcycle hself (hu ▸ hchild)
      refine (hwrite.append fun _ => hsuffix).mono ?_
      rintro _ ⟨t, _, rfl, ht, rfl⟩
      exact Graph.rendered_repeated hn hi hfilled (Bool.eq_false_iff.2 honce) hb hu ht

/-! ### Groups -/

theorem Enclosure.opening_ne_plain (how : Enclosure) : how.opening ≠ "(?:" := by
  have hangle : ∀ t : Text, "(?<" ++ t ≠ "(?:" := fun t h =>
    absurd (congrArg (List.take 3) h) (by decide : ("(?<" : Text) ≠ "(?:")
  cases how with
  | capture | atomic => decide
  | named =>
    rw [opening, append_assoc]
    exact hangle _
  | balancing =>
    rw [opening, append_assoc, append_assoc, append_assoc]
    exact hangle _
  | look kind =>
    cases kind with
    | undeclared => exact (by decide : ("(?=" : Text) ≠ "(?:")
    | ahead | notAhead | behind | notBehind => decide

/-- A node between parentheses of its own is rendered if they are read as one piece. -/
theorem writeGroup_rendered (hn : g.node? i = some n) (hi : ¬ g.HasCycleFrom (some i))
    (hsingle : ∀ {c}, (n.isSingle i).Finds g.Means c → true = c)
    (h : isNothing (g.flattened (some i)) = false → contents.Adds (g.meaning e) (fun t =>
      g.RenderedWhole nested (needBranches (g.flattened (some i))) (some i) (opening ++ t ++ ")"))) :
    (writeGroup i opening contents).Adds (g.meaning e) (g.Rendered nested (some i)) :=
  writeGroup_adds hi .of_nothing fun hfilled => (h hfilled).mono fun _ ht =>
    ht.rendered hfilled fun hc => hsingle ((Graph.means_node hn (by decide)).1 hc)

/-- **A group, an atomic group or a lookaround is rendered.** -/
theorem writeEnclosed_adds (hg : g.IsChecked) (he : g.Renders nested e) {how : Enclosure}
    (hn : g.node? i = some (.enclosed how c)) (hi : ¬ g.HasCycleFrom (some i)) :
    ((Node.enclosed how c).write g i).Adds (g.meaning e) (g.Rendered nested (some i)) := by
  have hc : ¬ g.HasCycleFrom c := Graph.not_hasCycleFrom_of_mem_refs hn hi c (mem_singleton.2 rfl)
  have hlegible : (Lexeme.opening how.opening).IsLegible := by
    refine Enclosure.isLegible_opening ?_ ?_
    · rintro name rfl
      exact hg.named hn
    · rintro name other rfl
      exact hg.balancing hn
  refine writeGroup_rendered hn hi id fun hfilled => (write_adds he hc).mono ?_
  rintro t ⟨bs, hwrites, herase, -⟩
  have hflat : g.flattened (some i) = one (.group how.opening (g.flattened c)) := by
    rw [Graph.flattened_node hn hi, Node.flat] at hfilled ⊢
    split at hfilled
    · cases hfilled
    · next hnot => rw [if_neg hnot]
  have hgroup := hwrites.group hlegible
  rw [if_neg how.opening_ne_plain] at hgroup
  rw [Graph.RenderedWhole, hflat]
  exact ⟨_, hgroup, rfl, fun h => by rw [erase_group how.opening_ne_plain, herase h, one]⟩

/-! ### Conditionals -/

variable {test : Condition} {expression yes no : Ref}

/-- Characters without a meaning write themselves. -/
theorem exists_writes_of_forall (h : ∀ x ∈ t, ∃ c ∉ literalMeta, x = Glyph.char c) : ∃ bs, Writes nested D 0 bs t := by
  have hself : escapeLiteral t = t := by
    unfold escapeLiteral
    induction t with
    | nil => rfl
    | cons x t ih =>
      obtain ⟨c, hc, rfl⟩ := h x mem_cons_self
      rw [flatMap_cons, ih fun y hy => h y (mem_cons_of_mem _ hy)]
      show escapeChar literalMeta c ++ t = _
      rw [escapeChar, if_neg hc]
      rfl
  obtain ⟨hspelling, hspell⟩ := isSpelling_literal t
  rw [hself] at hspell
  exact ⟨_, hspell ▸ Writes.atoms hspelling⟩

theorem exists_writes_ofInt {n : Int} (h : 0 ≤ n) : ∃ bs, Writes nested D 0 bs (Text.ofInt n) := by
  obtain ⟨n, rfl⟩ := Int.eq_ofNat_of_zero_le h
  refine exists_writes_of_forall fun x hx => ?_
  have hdigit : x.isDigit = true := Text.isDigit_of_mem_ofNat hx
  cases x with
  | stray => cases hdigit
  | char c => exact ⟨c, not_mem_literalMeta_of_isDigit hdigit, rfl⟩

theorem exists_writes_name {role : NameRole} {name : Text} (h : checkName role name = .ok ()) :
    ∃ bs, Writes nested D 0 bs name := by
  have hmeta : ∀ c ∈ replacement :: literalMeta, isNameGlyph (.char c) = false :=
    all_iff_forall_prop.1 (by decide +kernel)
  refine exists_writes_of_forall fun x hx => ?_
  have hname : isNameGlyph (.char x.read) = true := isNameGlyph_of_mem h x hx
  have hread : x.read ∉ replacement :: literalMeta := fun hmem => by
    rw [hmeta _ hmem] at hname
    cases hname
  cases x with
  | stray => exact absurd mem_cons_self hread
  | char c => exact ⟨c, fun hc => hread (mem_cons_of_mem _ hc), rfl⟩

/-- A condition is the test of a group, or it writes branches where conditions are nested. -/
def Graph.WritesCondition (g : Graph) (nested : Bool) (test : Condition) (t : Text) : Prop :=
  (nested = false → t = test.test) ∧ (nested = true → ∃ k cs, Writes true (g.Counts true) k cs t)

/-- A condition on a group is its test. -/
theorem writeTest_adds (h : test.kind = .groupNumber ∨ test.kind = .groupName) :
    (writeCondition i test expression).Adds (g.meaning e)
      (fun t => t = test.test ∧ (test.kind = .groupNumber → 0 ≤ test.group)) := by
  unfold writeCondition Condition.test
  rcases h with h | h
  all_goals
    simp only [h]
    split
    · exact fun _ => .objection
  · next hnumber => exact .emit ⟨rfl, fun _ => Int.not_lt.1 hnumber⟩
  · exact .emit ⟨rfl, nofun⟩

theorem writeCondition_adds (hg : g.IsWritable nested) (he : g.Renders nested e)
    (hn : g.node? i = some (.conditional test expression yes no)) (hcycle : ¬ g.HasCycleFrom expression) :
    (writeCondition i test expression).Adds (g.meaning e) (g.WritesCondition nested test) := by
  cases hkind : test.kind with
  | groupNumber =>
    refine (writeTest_adds (.inl hkind)).mono ?_
    rintro _ ⟨rfl, hnumber⟩
    refine ⟨fun _ => rfl, fun _ => ⟨0, ?_⟩⟩
    rw [Condition.test, hkind]
    exact exists_writes_ofInt (hnumber hkind)
  | groupName =>
    refine (writeTest_adds (.inr hkind)).mono ?_
    rintro _ ⟨rfl, -⟩
    refine ⟨fun _ => rfl, fun _ => ⟨0, ?_⟩⟩
    rw [Condition.test, hkind]
    exact exists_writes_name (hg.checked.condition hn hkind)
  | expression =>
    simp only [writeCondition, hkind]
    refine .ask_bind (by decide) ?_
    rintro ⟨empty, fl⟩ -
    cases empty with
    | true => exact fun _ => .objection
    | false =>
      refine (write_adds he hcycle).mono ?_
      rintro t ⟨bs, h⟩
      refine ⟨fun hplain => ?_, ?_⟩
      · -- where conditions are not nested they are about groups
        rcases (hg.readable hplain).about hn with h | h
        all_goals
          rw [hkind] at h
          cases h
      · rintro rfl
        exact ⟨_, bs, h.writes⟩
  | undeclared =>
    simp only [writeCondition, hkind]
    exact fun _ => .objection

theorem Graph.IsReadable.isLegible_condition (hg : g.IsReadable)
    (hn : g.node? i = some (.conditional test expression yes no)) : (Lexeme.test test.test).IsLegible := by
  refine isLegible_test ?_
  unfold Condition.test
  rcases hg.about hn with h | h
  · rw [h]
    exact Text.not_mem_ofInt rfl (by decide) _
  · rw [h]
    exact not_mem_of_forall (isNameGlyph_of_mem (hg.condition hn h)) (isNameGlyph_eq_false _ (by decide))

/-- The branch of a conditional behind the first one, unless it is nothing. -/
def Graph.otherwise (g : Graph) (no : Ref) : List (List (List Shape)) :=
  if isNothing (g.flattened no) then [] else [g.flattened no]

/-- The second branch is written, with a bar before it, unless it is nothing. -/
theorem writeOtherwise_adds (he : g.Renders nested e) (hno : ¬ g.HasCycleFrom no) :
    (do if ← Rule.ask .empty no then return () else Rule.emit "|"; writeBranch g no :
      Rule Unit).Adds (g.meaning e) (fun u => ∀ {k xs t}, Writes nested (g.Counts nested) k [xs] t →
        ∃ bs, Writes nested (g.Counts nested) (k + needSequence ((g.otherwise no).flatMap Shape.parts)) (xs :: bs)
          (t ++ u) ∧ (nested = false → eraseEach bs = g.otherwise no)) := by
  refine .ask_bind (by decide) ?_
  rintro ⟨empty, fl⟩ hempty
  unfold Graph.otherwise
  rw [← Graph.empty_eq hno hempty]
  cases empty with
  | true =>
    refine .done fun {k xs t} h => ⟨[], ?_, fun _ => rfl⟩
    rw [List.append_nil]
    exact h
  | false =>
    have hbar : (Rule.emit "|").Adds (g.meaning e) (· = "|") := .emit rfl
    refine (hbar.append fun _ => writeBranch_adds he hno).mono ?_
    rintro _ ⟨_, u, rfl, rfl, ys, hys, herase, -⟩ k xs t h
    refine ⟨[ys], ?_, fun h => congrArg (fun s => [s]) (herase h)⟩
    rw [← append_assoc, if_neg Bool.false_ne_true, flatMap_singleton]
    exact h.bar hys

/-- **A conditional is rendered.** -/
theorem writeConditional_adds (hg : g.IsWritable nested) (he : g.Renders nested e)
    (hn : g.node? i = some (.conditional test expression yes no)) (hi : ¬ g.HasCycleFrom (some i)) :
    ((Node.conditional test expression yes no).write g i).Adds (g.meaning e) (g.Rendered nested (some i)) := by
  have hrefs := Graph.not_hasCycleFrom_of_mem_refs hn hi
  have hcondition := writeCondition_adds hg he hn (hrefs expression (by simp [Node.refs]))
  have hclose : (Rule.emit ")").Adds (g.meaning e) (· = ")") := .emit rfl
  have hyes := writeBranch_adds he (hrefs yes (by simp [Node.refs]))
  have hno := writeOtherwise_adds he (hrefs no (by simp [Node.refs]))
  refine writeGroup_rendered hn hi id fun hfilled =>
    (hcondition.append fun _ => hclose.append fun _ => hyes.append fun _ => hno).mono ?_
  rintro _ ⟨u, _, rfl, ⟨htest, hnested⟩, _, _, rfl, rfl, t, v, rfl, ⟨xs, hxs, herase, -⟩, hv⟩
  obtain ⟨bs, hbs, herase'⟩ := hv hxs
  have htext : "(?(" ++ (u ++ (")" ++ (t ++ v))) ++ ")" = "(?(" ++ u ++ ")" ++ (t ++ v) ++ ")" := by
    simp only [append_assoc]
  rw [htext]
  cases nested with
  | true =>
    obtain ⟨k, cs, hcs⟩ := hnested rfl
    exact ⟨_, hcs.nestedConditional hbs (fun h => nomatch h.1) _, rfl, nofun⟩
  | false =>
    have hflat : g.flattened (some i) = one (.conditional test.test (g.flattened yes :: g.otherwise no)) := by
      rw [Graph.flattened_node hn hi, Node.flat] at hfilled ⊢
      split at hfilled
      · cases hfilled
      · next hnot =>
        rw [if_neg hnot, Graph.otherwise]
        split <;> rfl
    rw [htest rfl, Graph.RenderedWhole, hflat]
    refine ⟨_, (hbs.conditional ((hg.readable rfl).isLegible_condition hn)).mono fun _ => ?_, rfl, fun _ => ?_⟩
    · rw [one, Shape.needBranches_one, Shape.need, Shape.needParts_eq, flatMap_cons, Shape.needSequence_append]
    · rw [Item.erase, eraseEach, herase' rfl, ← herase rfl]
      rfl

/-! ### Options -/

variable {on off : Options}

theorem Options.letters_ne_nil {o : Options} (hbits : o.bits < 32) (h : o ≠ .empty) : o.letters ≠ [] := by
  have hall : ∀ n < 32, (⟨UInt8.ofNat n⟩ : Options).letters = [] → n = 0 := by decide
  have hlt : o.bits.toNat < 32 := hbits
  have hself : o = ⟨UInt8.ofNat o.bits.toNat⟩ := by rw [UInt8.ofNat_toNat]
  intro hnil
  rw [hself] at hnil
  have hzero := hall _ hlt hnil
  rw [hzero] at hself
  exact h hself

/-- Only without options a group with options is a plain one. -/
theorem options_ne_plain (hbits : on.bits < 32) (h : ¬ (on = .empty ∧ off = .empty)) :
    "(?" ++ optionFlags on off ++ ":" ≠ "(?:" := by
  have hflags : optionFlags on off ≠ [] := by
    unfold optionFlags
    split
    · next hoff => exact Options.letters_ne_nil hbits fun hon => h ⟨hon, hoff⟩
    · simp [Text.ofString]
  intro heq
  have hcancel : "(?" ++ optionFlags on off = "(?" ++ ([] : Text) :=
    append_cancel_right (heq : _ = "(?" ++ ([] : Text) ++ ":")
  exact hflags (append_cancel_left hcancel)

theorem Graph.renderedWhole_options (hn : g.node? i = some (.modified on off c))
    (hi : ¬ g.HasCycleFrom (some i)) (hfilled : isNothing (g.flattened (some i)) = false)
    (hc : g.isAbsent c = true) : g.RenderedWhole nested (needBranches (g.flattened (some i))) (some i)
      ("(?" ++ optionFlags on off ++ ")") := by
  rw [flattened_node hn hi, Node.flat, if_pos hc] at hfilled
  rw [RenderedWhole, flattened_node hn hi, Node.flat, if_pos hc]
  split at hfilled
  · cases hfilled
  · next hnot =>
    rw [if_neg hnot]
    exact ⟨_, .atom (isLegible_options on off).2, rfl, fun _ => rfl⟩

theorem Graph.IsWritable.renderedWhole_modified (hg : g.IsWritable nested) (hn : g.node? i = some (.modified on off c))
    (hi : ¬ g.HasCycleFrom (some i)) (hfilled : isNothing (g.flattened (some i)) = false) (hc : g.isAbsent c = false)
    (ht : g.Rendered nested c t) : g.RenderedWhole nested (needBranches (g.flattened (some i))) (some i)
      ("(?" ++ optionFlags on off ++ ":" ++ t ++ ")") := by
  obtain ⟨bs, hwrites, herase, -⟩ := ht
  have hgroup := hwrites.group (isLegible_options on off).1
  have hc' : ¬ g.isAbsent c = true := Bool.eq_false_iff.1 hc
  rw [RenderedWhole, flattened_node hn hi, Node.flat, if_neg hc'] at *
  split at hfilled
  · cases hfilled
  · next hnot =>
    rw [if_neg hnot]
    split
    · next hempty =>
      -- a group without options is a plain one
      obtain ⟨rfl, rfl⟩ : on = .empty ∧ off = .empty := by simpa using hempty
      refine ⟨_, hgroup.mono fun hcounts => ?_, rfl, fun h => (erase_plain bs).trans (herase h)⟩
      exact absurd ⟨rfl, rfl⟩ (hcounts.2 hn hc)
    · next hempty =>
      have hplain : nested = false → "(?" ++ optionFlags on off ++ ":" ≠ "(?:" := fun h =>
        options_ne_plain ((hg.readable h).options hn) (by simpa using hempty)
      refine ⟨_, hgroup.mono fun hcounts => ?_, rfl, fun h => ?_⟩
      · rw [if_neg (hplain hcounts.1)]
        exact Nat.le_refl _
      · rw [erase_group (hplain h), herase h, one]

/-- **A pattern with options is rendered,** and options without a pattern are. -/
theorem writeModified_adds (hg : g.IsWritable nested) (he : g.Renders nested e)
    (hn : g.node? i = some (.modified on off c)) (hi : ¬ g.HasCycleFrom (some i)) :
    ((Node.modified on off c).write g i).Adds (g.meaning e) (g.Rendered nested (some i)) := by
  have hcycle : ¬ g.HasCycleFrom c := Graph.not_hasCycleFrom_of_mem_refs hn hi c (mem_singleton.2 rfl)
  refine writeGroup_rendered hn hi id fun hfilled => ?_
  by_cases hinter : on.inter off = .empty
  · rw [if_pos hinter]
    unfold optionsOpening
    cases hc : g.isAbsent c with
    | true =>
      refine (write_adds_nil (Option.isNone_iff_eq_none.1 hc)).mono ?_
      rintro _ rfl
      rw [if_pos rfl, List.append_nil]
      exact Graph.renderedWhole_options hn hi hfilled hc
    | false =>
      exact (write_adds he hcycle).mono fun t ht => hg.renderedWhole_modified hn hi hfilled hc ht
  · rw [if_neg hinter]
    exact fun _ => .objection

/-! ### Sets -/

/-- **A set is rendered.** -/
theorem writeSet_adds (hg : g.IsChecked) (he : g.Renders nested e) {s : CharacterSet Ref}
    (hn : g.node? i = some (.set s)) (hi : ¬ g.HasCycleFrom (some i)) :
    (writeSet g i s).Adds (g.meaning e) (g.Rendered nested (some i)) := by
  unfold writeSet
  cases hbase : s.hasBase with
  | false =>
    simp only [Bool.not_false, if_true]
    split
    · exact fun _ => .objection
    · next hsub =>
      refine .done (.of_nothing ?_)
      rw [Graph.flattened_node hn hi, Node.isNothing_set, hbase, Bool.eq_false_iff.2 hsub]
      rfl
  | true =>
    simp only [Bool.not_true, Bool.false_eq_true, if_false]
    refine .ofResult fun ranges hranges => .ofResult fun subtracted hsubtracted => ?_
    split
    · next r honly =>
      have hmem := (hg.isTidy.memberForm?_of_only? hn hranges honly).1
      refine (write_adds he (Graph.not_hasCycleFrom_of_mem_refs hn hi r hmem)).mono fun t ht => ?_
      exact hg.rendered_only hn hi hbase hranges hsubtracted honly ht
    · next honly =>
      refine .ofResult fun t ht => ?_
      have hemit : (Rule.emit t).Adds (g.meaning e) (g.Rendered nested (some i)) :=
        .emit (hg.rendered_bracketed hn hi hbase hranges hsubtracted honly ht)
      split
      · exact fun dr => hemit { dr with subtraction := true }
      · exact hemit

/-! ### All nodes -/

/-- **Whatever a node writes renders it.** -/
theorem Node.write_yields (hg : g.IsWritable nested) (he : g.Renders nested e) (hn : g.node? i = some n)
    (hi : ¬ g.HasCycleFrom (some i)) :
    (n.write g i).Yields (g.meaning e) (fun _ dr => g.Rendered nested (some i) dr.text) {} := by
  cases n with
  | leaf l =>
    have hwrite : ((Node.leaf l).write g i).Adds (g.meaning e) (g.Rendered nested (some i)) :=
      .ofResult fun t ht => .emit (hg.checked.rendered_leaf hn hi ht)
    exact hwrite.yields
  | set => exact (writeSet_adds hg.checked he hn hi).yields
  | concat => exact writeConcat_yields he hn hi
  | alternation => exact (writeAlternation_adds he hn hi).yields
  | quantified => exact (writeQuantified_adds hg.checked he hn hi).yields
  | group c =>
    cases hc : g.isAbsent c with
    | true =>
      have hnone := Option.isNone_iff_eq_none.1 hc
      have hwrite : (Rule.write c).Adds (g.meaning e) (g.Rendered nested (some i)) := by
        refine (write_adds_nil hnone).mono ?_
        rintro _ rfl
        refine .of_nothing ?_
        rw [Graph.flattened_node hn hi, Node.flat, Graph.flattened_absent hnone]
        rfl
      exact hwrite.yields
    | false =>
      have hcycle := Graph.not_hasCycleFrom_of_mem_refs hn hi c (mem_singleton.2 rfl)
      have hwrite := (write_adds he hcycle).mono fun t ht =>
        Graph.Rendered.of_seesThrough hn hi (.group hc) ht
      exact hwrite.yields
  | enclosed => exact (writeEnclosed_adds hg.checked he hn hi).yields
  | conditional => exact (writeConditional_adds hg he hn hi).yields
  | modified => exact (writeModified_adds hg he hn hi).yields

end

namespace Graph

variable {g : Graph} {nested : Bool}

/-- **The text that a pattern means renders it.** -/
theorem IsWritable.renders (hg : g.IsWritable nested) : ∀ e, g.Renders nested e
  | 0 => fun _ _ _ h => (nomatch h)
  | e + 1 => by
    rintro r ⟨t, fl⟩ hr h
    rcases g.absent_or_node r with hderef | ⟨i, n, rfl, hn⟩
    · rw [meaning_absent hderef] at h
      cases h
      exact .of_nothing (by rw [flattened_absent hderef]; rfl)
    · obtain ⟨e', dr, he, heval⟩ := exists_eval_of_meaning hn h
      cases he
      have hrule : (n.rule g i .text).Yields (g.meaning e) (fun t _ => g.Rendered nested (some i) t) {} := by
        refine (Node.write_yields hg (hg.renders e) hn hr).bind fun _ dr hdr => ?_
        intro t dr' ht
        cases ht
        exact hdr
      exact hrule _ _ heval

/-- What a pattern is rendered as renders it. -/
theorem IsWritable.rendered_render (hg : g.IsWritable nested) {r : Ref} (hr : ¬ g.HasCycleFrom r) {x : Rendering}
    (h : g.render r = .ok x) : g.Rendered nested r x.text := by
  rw [render_eq_told hg.checked.isTidy, ← (meaning_eq_toldOf hg.checked.isTidy hr .text).1] at h
  obtain ⟨⟨t, fl⟩, ht, hx⟩ := bind_eq_ok.1 h
  cases hx
  exact hg.renders _ r _ hr ht

theorem IsReadable.isWritable (hg : g.IsReadable) : g.IsWritable false := ⟨hg.toIsChecked, fun _ => hg⟩

theorem IsChecked.isWritable (hg : g.IsChecked) : g.IsWritable true := ⟨hg, nofun⟩

/-- **A rendered pattern is read as its flattened tree.** Let no cycle be reached from `r` in a
readable graph, whose nodes may be shared. What is written for `r` is read completely, and what is
read is, without plain groups, the flattened tree of `r`. -/
theorem render_faithful (hg : g.IsReadable) {r : Ref} (hr : ¬ g.HasCycleFrom r) {x : Rendering}
    (h : g.render r = .ok x) :
    ∃ bs, readPattern? x.text = some bs ∧ eraseBranches bs = g.flattened r := by
  obtain ⟨bs, hwrites, herase, -⟩ := hg.isWritable.rendered_render hr h
  exact ⟨bs, hwrites.readPattern?_eq, herase rfl⟩

/-- A backreference and a digit, shared by a repeated alternation and what follows it. -/
def repeatedDigits : Graph :=
  ⟨#[.leaf (.backreference (.numbered 1)), .leaf (.literal "2"), .concat [some 0, some 1],
    .alternation [some 2, some 1], .quantified ⟨0, unbounded, true⟩ (some 3),
    .concat [some 4, some 0, some 1]]⟩

theorem render_faithful_repeatedDigits :
    repeatedDigits.render (some 5) = .ok ⟨"(?:(?:\\1)2|2)*(?:\\1)2", false⟩ ∧
      ∃ bs, readPattern? "(?:(?:\\1)2|2)*(?:\\1)2" = some bs ∧
        eraseBranches bs = repeatedDigits.flattened (some 5) := by
  have hrender : repeatedDigits.render (some 5) = .ok ⟨"(?:(?:\\1)2|2)*(?:\\1)2", false⟩ := by
    decide +kernel
  have hreadable : repeatedDigits.IsReadable := by
    refine ⟨⟨⟨?raw, ?category, ?backreference, ?named, ?balancing, ?condition⟩, ?kind, ?member, ?bracket⟩,
      ?about, ?options⟩
    case backreference =>
      intro i b h hname
      obtain rfl : b = .numbered 1 := by simpa [repeatedDigits] using mem_nodes h
      exact absurd rfl hname
    all_goals exact fun h => by simpa [repeatedDigits] using mem_nodes h
  have hacyclic : ¬ repeatedDigits.HasCycleFrom (some 5) := not_hasCycleFrom_of_lt (by decide) _
  exact ⟨hrender, render_faithful hreadable hacyclic hrender⟩

end Graph
end RegexBuilder
