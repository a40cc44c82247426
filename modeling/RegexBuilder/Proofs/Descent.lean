/-
# Rules ask downwards

A rule of a node asks about what lies below the node, and about the node itself only a question of a lower rank:

| question | rank | asks about the node itself |
| --- | --- | --- |
| `text` | 2 | `empty` |
| `single` | 1 | `empty` |
| `core`, `empty` | 0 | nothing |

`Rule.Follows` states this of a rule, with what its answer satisfies, and `Node.rule_follows` shows it of every node,
with when a node objects (`Node.IsSilent`) and what its faults are.
-/

import Mathlib.Logic.Relation
import Mathlib.Tactic.Common
import RegexBuilder.Pattern.Occurrence
import RegexBuilder.Pattern.Rules

namespace RegexBuilder

open List Relation Rule

/-! ### Child edges -/

namespace Graph

/-- Node `i` refers to node `j`. -/
def Child (g : Graph) (i j : NodeId) : Prop :=
  (∃ n, g.node? i = some n ∧ some j ∈ n.refs) ∧ ∃ n, g.node? j = some n

/-- What is referred to, if it is a node, lies below node `i`. -/
def Below (g : Graph) (i : NodeId) (r : Ref) : Prop :=
  ∀ j n, r = some j → g.node? j = some n → TransGen g.Child i j

/-- What `u` refers to, if it is a node, is what `r` refers to or lies below it. -/
def Down (g : Graph) (r u : Ref) : Prop :=
  ∀ j n, u = some j → g.node? j = some n →
    ∃ k m, r = some k ∧ g.node? k = some m ∧ ReflTransGen g.Child k j

variable {g : Graph} {i : NodeId}

variable {n : Node} {r : Ref}

/-- What a node refers to lies below it. -/
theorem below_of_mem_refs (hn : g.node? i = some n) (hr : r ∈ n.refs) : g.Below i r := by
  rintro j m rfl hm
  exact .single ⟨⟨n, hn, hr⟩, m, hm⟩

/-- What lies below a node lies below what is above that. -/
theorem Below.trans {j : NodeId} (hn : g.node? j = some n) (h : g.Below i (some j)) (hr : g.Below j r) :
    g.Below i r := fun k m hk hm =>
  (h j n rfl hn).trans (hr k m hk hm)

theorem Below.down {u : Ref} (h : g.Below i r) (hu : g.Down r u) : g.Below i u := by
  intro j n hj hn
  obtain ⟨k, m, hk, hm, hkj⟩ := hu j n hj hn
  exact (h k m hk hm).trans_left hkj

theorem Down.refl (r : Ref) : g.Down r r := fun j n hj hn => ⟨j, n, hj, hn, .refl⟩

theorem Below.down_self (hn : g.node? i = some n) (h : g.Below i r) :
    g.Down (some i) r := fun j m hj hm => ⟨i, n, rfl, hn, (h j m hj hm).to_reflTransGen⟩

theorem Down.trans {a b c : Ref} (h : g.Down a b) (h' : g.Down b c) : g.Down a c := by
  intro j n hj hn
  obtain ⟨k, m, hk, hm, hkj⟩ := h' j n hj hn
  obtain ⟨l, p, hl, hp, hlk⟩ := h k m hk hm
  exact ⟨l, p, hl, hp, hlk.trans hkj⟩

end Graph

/-! ### What nodes object to -/

/-- The node objects to nothing and has no fault: what it is made of has a text, and a quantifier may
stand behind what it applies to. -/
def Node.IsSilent (g : Graph) : Node → Prop
  | leaf l => ∃ t, l.form = .ok t
  | set s => s.hasBase = true ∧ ∃ ranges subtracted t, CharacterSet.resolveRanges g s.ranges = .ok ranges ∧
    CharacterSet.resolveRanges g s.subtractedRanges = .ok subtracted ∧
    s.bracketed g ranges subtracted = .ok t
  | quantified b c => b.objection? = none ∧ ∀ u, g.Down c u → quantifierObjection? g (g.deref? u) = .ok none
  | conditional _ _ _ _ => False
  | modified on off _ => on.inter off = .empty
  | concat _ | alternation _ | group _ | enclosed _ _ => True

/-- Node `i` may object to something or have a fault. -/
def Graph.Objects (g : Graph) (i : NodeId) : Prop := ∃ n, g.node? i = some n ∧ ¬ n.IsSilent g

/-- An anchor of the graph has no form. -/
def Graph.LacksForm (g : Graph) : Prop := ∃ i kind, g.node? i = some (.leaf (.anchor kind)) ∧ kind.form? = none

/-! ### What rules ask -/

/-- A rule asks about its own node only questions of a lower rank than its own. -/
def Question.rank : Question → Nat
  | text => 2
  | single => 1
  | core | empty => 0

/-- What a node comes down to is the node itself or lies below it; the other answers say nothing
about nodes. -/
def Question.Sound (g : Graph) : (q : Question) → Ref → q.Answer → Prop
  | core, r, u => g.Down r u
  | text, _, _ | empty, _, _ | single, _, _ => True

/-- The question `q` about `r` may be asked by the rule of node `i` for the question `own`. -/
def Permitted (g : Graph) (i : NodeId) (own q : Question) (r : Ref) : Prop :=
  q.rank ≤ own.rank ∧ (g.Below i r ∨ r = some i ∧ q.rank < own.rank)

/-- Only a rule for a text asks for texts. -/
theorem Permitted.ne_text {g : Graph} {i : NodeId} {own q : Question} {r : Ref} (h : Permitted g i own q r)
    (hown : own ≠ .text) : q ≠ .text := by
  rintro rfl
  have hrank := h.1
  cases own <;> simp [Question.rank] at hrank hown

namespace Rule

theorem bind_done {α : Type} (p : Rule α) : (p >>= done) = p := by
  induction p with
  | done | objection | fault => rfl
  | output t next ih => exact congrArg (output t) ih
  | reading next ih => exact congrArg reading (funext ih)
  | separation place next ih => exact congrArg (separation place) ih
  | subtraction next ih => exact congrArg subtraction ih
  | question q r next ih => exact congrArg (question q r) (funext ih)

/-- Every question of the rule is permitted, only a rule for a text writes, only a node that may object does, and the
answer satisfies `Q`, provided that the answers to its questions are sound. -/
def Follows {α : Type} (g : Graph) (i : NodeId) (own : Question) (Q : α → Prop) : Rule α → Prop
  | done a => Q a
  | objection j _ => j = i ∧ g.Objects i
  | fault _ => g.Objects i ∧ g.LacksForm
  | output _ next | separation _ next | subtraction next => own = .text ∧ next.Follows g i own Q
  | reading next => own = .text ∧ ∀ t, (next t).Follows g i own Q
  | question q r next =>
    Permitted g i own q r ∧ ∀ a, q.Sound g r a → (next a).Follows g i own Q

namespace Follows

variable {α β : Type} {g : Graph} {i : NodeId} {own : Question} {Q : α → Prop} {Q' : β → Prop}

/-- **Rules are put together from parts that follow.** -/
theorem bind {p : Rule α} {k : α → Rule β} (h : p.Follows g i own Q)
    (hk : ∀ a, Q a → (k a).Follows g i own Q') : (p >>= k).Follows g i own Q' := by
  induction p with
  | done a => exact hk a h
  | objection | fault => exact h
  | output t next ih | separation place next ih | subtraction next ih => exact ⟨h.1, ih h.2⟩
  | reading next ih => exact ⟨h.1, fun t => ih t (h.2 t)⟩
  | question q r next ih => exact ⟨h.1, fun a ha => ih a (h.2 a ha)⟩

theorem mono {p : Rule α} {R : α → Prop} (h : p.Follows g i own Q) (hQ : ∀ a, Q a → R a) :
    p.Follows g i own R := p.bind_done ▸ h.bind hQ

/-- A question about what lies below may be asked if its rank allows. -/
theorem ask {q : Question} {r : Ref} (hr : g.Below i r) (hq : q.rank ≤ own.rank) :
    (Rule.ask q r).Follows g i own (q.Sound g r) := ⟨⟨hq, .inl hr⟩, fun _ ha => ha⟩

/-- Whether the node itself is empty may be asked by the rules for its text and for `single`. -/
theorem askSelf (h : 0 < own.rank) : (Rule.ask .empty (some i)).Follows g i own fun _ => True :=
  ⟨⟨Nat.zero_le _, .inr ⟨rfl, h⟩⟩, fun _ _ => trivial⟩

theorem write {r : Ref} (hr : g.Below i r) :
    (Rule.write r).Follows g i .text fun _ => True := ⟨⟨Nat.le_refl _, .inl hr⟩, fun _ _ => trivial⟩

theorem emit (t : Text) : (Rule.emit t).Follows g i .text fun _ => True := ⟨rfl, trivial⟩

theorem object (h : g.Objects i) (why : Objection) : (Rule.object i why).Follows g i own Q := ⟨rfl, h⟩

theorem ofResult {x : Except Objection α} (h : ∀ why, x = .error why → g.Objects i) :
    (Rule.ofResult i x).Follows g i own (x = .ok ·) := by
  cases x with
  | error why => exact ⟨rfl, h why rfl⟩
  | ok => exact rfl

theorem pure {a : α} (h : Q a) : (pure a : Rule α).Follows g i own Q := h

end Follows
end Rule

section

variable {g : Graph} {i : NodeId} {own : Question}

/-- What is kept of some references lies below, too. -/
theorem nonEmpty_follows {cs : List Ref} (h : ∀ r ∈ cs, g.Below i r) :
    (nonEmpty cs).Follows g i own fun rs => ∀ r ∈ rs, g.Below i r := by
  induction cs with
  | nil => exact .pure fun r hr => absurd hr not_mem_nil
  | cons c cs ih =>
    refine (Follows.ask (h c mem_cons_self) (Nat.zero_le _)).bind fun e _ => ?_
    refine (ih fun r hr => h r (mem_cons_of_mem _ hr)).bind fun others hothers => .pure ?_
    cases e with
    | true => exact hothers
    | false => exact forall_mem_cons.2 ⟨h c mem_cons_self, hothers⟩

variable {r e : Ref} {rs : List Ref} {c : Condition} {s : CharacterSet Ref}

theorem writeSingle_follows (h : g.Below i r) : (writeSingle r).Follows g i .text fun _ => True := by
  refine (Follows.ask h (by decide)).bind fun single _ => ?_
  cases single with
  | true => exact .write h
  | false => exact (Follows.emit _).bind fun _ _ => (Follows.write h).bind fun _ _ => .emit _

/-- What a branch comes down to lies below. -/
theorem writeBranch_follows (h : g.Below i r) : (writeBranch g r).Follows g i .text fun _ => True := by
  refine (Follows.ask h (by decide)).bind fun u hu => ?_
  have hu : g.Below i u := h.down hu
  split
  · exact (Follows.emit _).bind fun _ _ => (Follows.write hu).bind fun _ _ => .emit _
  · exact .write hu

/-- A sequence goes on with what lies below. -/
theorem writeRest_follows (h : ∀ r ∈ rs, g.Below i r) : (writeRest g rs).Follows g i .text fun _ => True := by
  induction rs with
  | nil => exact .pure trivial
  | cons r rs ih =>
    refine ⟨rfl, fun t => ?_⟩
    refine (writeBranch_follows (h r mem_cons_self)).bind fun _ _ => ?_
    exact ⟨rfl, ih fun r' hr' => h r' (mem_cons_of_mem _ hr')⟩

/-- Branches are written of what lies below. -/
theorem writeBranches_follows (h : ∀ r ∈ rs, g.Below i r) : (writeBranches rs).Follows g i .text fun _ => True := by
  induction rs with
  | nil => exact .pure trivial
  | cons r rs ih =>
    refine (Follows.emit _).bind fun _ _ => ?_
    refine (Follows.write (h r mem_cons_self)).bind fun _ _ => ?_
    exact ih fun r' hr' => h r' (mem_cons_of_mem _ hr')

/-- A group asks about its own node first. -/
theorem writeGroup_follows {opening : Text} {contents : Rule Unit} (h : contents.Follows g i .text fun _ => True) :
    (writeGroup i opening contents).Follows g i .text fun _ => True := by
  refine (Follows.askSelf (by decide)).bind fun e _ => ?_
  cases e with
  | true => exact .pure trivial
  | false => exact (Follows.emit _).bind fun _ _ => h.bind fun _ _ => .emit _

/-- Only a condition that has no text is objected to. -/
theorem writeCondition_follows (hi : g.Objects i) (h : g.Below i e) :
    (writeCondition i c e).Follows g i .text fun _ => True := by
  unfold writeCondition
  split
  · split
    · exact .object hi _
    · exact .emit _
  · split
    · exact .object hi _
    · exact .emit _
  · refine (Follows.ask h (by decide)).bind fun empty _ => ?_
    cases empty with
    | true => exact .object hi _
    | false => exact .write h
  · exact .object hi _

theorem writeConditional_follows (hi : g.Objects i) {yes no : Ref} (he : g.Below i e) (hyes : g.Below i yes)
    (hno : g.Below i no) : (writeConditional g i c e yes no).Follows g i .text fun _ => True := by
  refine (writeCondition_follows hi he).bind fun _ _ => ?_
  refine (Follows.emit _).bind fun _ _ => (writeBranch_follows hyes).bind fun _ _ => ?_
  refine (Follows.ask hno (by decide)).bind fun empty _ => ?_
  cases empty with
  | true => exact .pure trivial
  | false => exact (Follows.emit _).bind fun _ _ => writeBranch_follows hno

/-- What is written in place of a set is one of its elements. -/
theorem CharacterSet.mem_refs_of_only? {ranges : List (Range Character)} (h : s.only? ranges = some r) :
    r ∈ s.refs := by
  unfold only? at h
  split at h
  · cases h
  split at h
  · cases h
    simp [refs, *]
  · split at h
    · cases h
      simp [refs, *]
    · cases h
  · cases h

/-- A set is written alone if it may object, or as what lies below. -/
theorem writeSet_follows (hn : g.node? i = some (.set s)) : (writeSet g i s).Follows g i .text fun _ => True := by
  unfold writeSet
  split
  · next hbase =>
    split
    · refine .object ⟨_, hn, fun hsilent => ?_⟩ _
      rw [hsilent.1] at hbase
      cases hbase
    · exact .pure trivial
  · refine (Follows.ofResult fun why hwhy => ⟨_, hn, ?_⟩).bind fun ranges hranges => ?_
    · rintro ⟨-, _, _, _, hranges, -⟩
      cases hwhy.symm.trans hranges
    refine (Follows.ofResult fun why hwhy => ⟨_, hn, ?_⟩).bind fun subtracted hsubtracted => ?_
    · rintro ⟨-, _, _, _, -, hsubtracted, -⟩
      cases hwhy.symm.trans hsubtracted
    split
    · next r hr => exact .write (Graph.below_of_mem_refs hn (CharacterSet.mem_refs_of_only? hr))
    refine (Follows.ofResult fun why hwhy => ⟨_, hn, ?_⟩).bind fun t _ => ?_
    · rintro ⟨-, _, _, _, hranges', hsubtracted', hbracketed⟩
      cases hranges.symm.trans hranges'
      cases hsubtracted.symm.trans hsubtracted'
      cases hwhy.symm.trans hbracketed
    split
    · exact ⟨rfl, rfl, trivial⟩
    · exact .emit t

/-- Only an anchor without a form is a fault. -/
theorem Graph.lacksForm_of_quantifierObjection? {f : Fault} (h : quantifierObjection? g (g.deref? r) = .error f) :
    g.LacksForm := by
  unfold quantifierObjection? at h
  split at h
  · next kind hr =>
    obtain ⟨j, rfl, hj⟩ := Option.bind_eq_some_iff.1 hr
    split at h
    · cases h
    · next hform => exact ⟨j, kind, hj, hform⟩
  all_goals cases h

theorem writeQuantified_follows {b : Bounds} {child : Ref} (hn : g.node? i = some (.quantified b child)) :
    (writeQuantified g i b child).Follows g i .text fun _ => True := by
  refine (Follows.askSelf (by decide)).bind fun e _ => ?_
  cases e with
  | true => exact .pure trivial
  | false =>
    have h := Graph.below_of_mem_refs hn mem_cons_self
    refine (Follows.ask h (by decide)).bind fun u hdown => ?_
    have hu : g.Below i u := h.down hdown
    have hobjects : quantifierObjection? g (g.deref? u) ≠ .ok none → g.Objects i := fun hne =>
      ⟨_, hn, fun hsilent => hne (hsilent.2 u hdown)⟩
    split
    · next hfault => exact ⟨hobjects (by rw [hfault]; nofun), Graph.lacksForm_of_quantifierObjection? hfault⟩
    · next hwhy => exact .object (hobjects (by rw [hwhy]; nofun)) _
    · split
      · exact .write hu
      · exact (writeSingle_follows hu).bind fun _ _ => .emit _

end

namespace Node

variable {g : Graph} {i : NodeId} {n : Node}

theorem write_follows (hn : g.node? i = some n) : (n.write g i).Follows g i .text fun _ => True := by
  have h : ∀ r ∈ n.refs, g.Below i r := fun r hr => Graph.below_of_mem_refs hn hr
  cases n with
  | leaf =>
    refine (Follows.ofResult fun why hwhy => ⟨_, hn, ?_⟩).bind fun t _ => .emit t
    rintro ⟨t, ht⟩
    cases hwhy.symm.trans ht
  | set => exact writeSet_follows hn
  | concat =>
    refine (nonEmpty_follows h).bind fun rs hrs => ?_
    match rs, hrs with
    | [], _ => exact .pure trivial
    | [r], hrs => exact .write (hrs r mem_cons_self)
    | r :: r' :: rest, hrs =>
      refine (writeBranch_follows (hrs r mem_cons_self)).bind fun _ _ => ?_
      exact writeRest_follows fun x hx => hrs x (mem_cons_of_mem _ hx)
  | alternation cs =>
    cases cs with
    | nil => exact .pure trivial
    | cons r rest =>
      refine (Follows.write (h r mem_cons_self)).bind fun _ _ => ?_
      exact writeBranches_follows fun x hx => h x (mem_cons_of_mem _ hx)
  | quantified => exact writeQuantified_follows hn
  | group c => exact .write (h c mem_cons_self)
  | enclosed how c => exact writeGroup_follows (.write (h c mem_cons_self))
  | conditional t e yes no =>
    exact writeGroup_follows (writeConditional_follows ⟨_, hn, id⟩ (h e (by simp [refs]))
      (h yes (by simp [refs])) (h no (by simp [refs])))
  | modified on off c =>
    refine writeGroup_follows ?_
    split
    · exact .write (h c mem_cons_self)
    · next hinter => exact .object ⟨_, hn, hinter⟩ _

theorem isEmpty_follows (hn : g.node? i = some n) : (n.isEmpty g i).Follows g i .empty fun _ => True := by
  have h : ∀ r ∈ n.refs, g.Below i r := fun r hr => Graph.below_of_mem_refs hn hr
  have hask : ∀ r ∈ n.refs, (Rule.ask .empty r).Follows g i .empty fun _ => True := fun r hr =>
    .ask (h r hr) (Nat.le_refl _)
  unfold isEmpty
  split
  · exact .pure trivial
  · exact .pure trivial
  · exact (nonEmpty_follows h).bind fun _ _ => .pure trivial
  · exact .pure trivial
  · exact hask _ mem_cons_self
  · exact .pure trivial
  · split
    · next hwhy =>
      refine .object ⟨_, hn, fun hsilent => ?_⟩ _
      cases hwhy.symm.trans hsilent.1
    · split
      · exact .pure trivial
      · refine (Follows.ask (h _ mem_cons_self) (by decide)).bind fun u hu => ?_
        exact .ask ((h _ mem_cons_self).down hu) (Nat.le_refl _)
  · exact hask _ mem_cons_self
  · split
    · exact .pure trivial
    · exact hask _ mem_cons_self
  · exact hask _ mem_cons_self
  · refine (hask _ (by simp [refs])).bind fun e _ => ?_
    cases e with
    | true => exact hask _ (by simp [refs])
    | false => exact .pure trivial
  · split
    · exact .pure trivial
    · exact hask _ mem_cons_self

theorem isSingle_follows (h : ∀ r ∈ n.refs, g.Below i r) : (n.isSingle i).Follows g i .single fun _ => True := by
  have hask : ∀ r, g.Below i r → (Rule.ask .single r).Follows g i .single fun _ => True :=
    fun r hr => .ask hr (Nat.le_refl _)
  unfold isSingle
  split
  · exact .pure trivial
  · refine (nonEmpty_follows h).bind fun rs hrs => ?_
    match rs, hrs with
    | [], _ | _ :: _ :: _, _ => exact .pure trivial
    | [r], hrs => exact hask r (hrs r mem_cons_self)
  · exact .pure trivial
  · exact hask _ (h _ mem_cons_self)
  · exact .pure trivial
  · refine (Follows.askSelf (by decide)).bind fun e _ => ?_
    cases e with
    | true => exact .pure trivial
    | false =>
      split
      · contradiction
      · split
        · exact hask _ (h _ mem_cons_self)
        · exact .pure trivial
  · exact hask _ (h _ mem_cons_self)
  all_goals exact .pure trivial

/-- **A node comes down to itself or to what lies below it.** -/
theorem core_follows (hn : g.node? i = some n) (h : ∀ r ∈ n.refs, g.Below i r) :
    (n.core g i).Follows g i .core (g.Down (some i)) := by
  have hself : (pure (some i) : Rule Ref).Follows g i .core (g.Down (some i)) := .pure (.refl _)
  have hask : ∀ r, g.Below i r → (Rule.ask .core r).Follows g i .core (g.Down (some i)) :=
    fun r hr => (Follows.ask hr (Nat.le_refl _)).mono fun u hu => (hr.down_self hn).trans hu
  unfold core
  split
  · refine (nonEmpty_follows h).bind fun rs hrs => ?_
    match rs, hrs with
    | [], _ | _ :: _ :: _, _ => exact hself
    | [r], hrs => exact hask r (hrs r mem_cons_self)
  · exact hask _ (h _ mem_cons_self)
  · split
    · exact hask _ (h _ mem_cons_self)
    · exact hself
  · split
    · exact hself
    · exact hask _ (h _ mem_cons_self)
  all_goals exact hself

/-- **Every rule of every node asks downwards,** and its answer is sound. -/
theorem rule_follows (hn : g.node? i = some n) (q : Question) : (n.rule g i q).Follows g i q (q.Sound g (some i)) := by
  have h : ∀ r ∈ n.refs, g.Below i r := fun r hr => Graph.below_of_mem_refs hn hr
  cases q with
  | text => exact (write_follows hn).bind fun _ _ => ⟨rfl, fun _ => trivial⟩
  | core => exact core_follows hn h
  | empty => exact isEmpty_follows hn
  | single => exact isSingle_follows h

end Node
end RegexBuilder
