/-
# Graphs with other numbers

A mirror that relates different nodes to different nodes only renumbers them. Then sessions in the two graphs go in
step, table by table and question by question, and every question has the same outcome up to the numbers of nodes
(`Graph.IsMirror.questions_alike`): a recursion error reports the same path in other numbers.
-/

import RegexBuilder.Proofs.Sharing

namespace RegexBuilder

open List

/-- Different nodes are related to different nodes. -/
def IsOneToOne (R : Ref → Ref → Prop) : Prop :=
  ∀ {i j i' j' : NodeId}, R (some i) (some i') → R (some j) (some j') → (i = j ↔ i' = j')

/-- Nodes that are related stand in related lists or in neither. -/
theorem IsOneToOne.mem_iff {R : Ref → Ref → Prop} (hR : IsOneToOne R) {o o' : List NodeId}
    (h : Forall₂ (fun i i' => R (some i) (some i')) o o') {i i' : NodeId} (hi : R (some i) (some i')) :
    i ∈ o ↔ i' ∈ o' := by
  constructor
  · intro hmem
    obtain ⟨j, hj, hij⟩ := exists_mem_of_forall₂ h hmem
    exact (hR hij hi).1 rfl ▸ hj
  · intro hmem
    obtain ⟨j, hj, hij⟩ := exists_mem_of_forall₂ h.flip hmem
    exact (hR hij hi).2 rfl ▸ hj

/-! ### Sessions -/

/-- The sessions differ in the numbers of nodes only. -/
structure Session.Alike (R : Ref → Ref → Prop) (s s' : Session) : Prop where
  out : s.out = s'.out
  subtraction : s.subtraction = s'.subtraction
  kept : ∀ q {i i'}, R (some i) (some i') →
    Option.Rel (q.Alike R) ((s.kept q).lookup i) ((s'.kept q).lookup i')

/-- The open questions differ in the numbers of nodes only. -/
def Open.Alike (R : Ref → Ref → Prop) (o o' : Open) : Prop :=
  ∀ q, Forall₂ (fun i i' => R (some i) (some i')) (o q) (o' q)

section

variable {R : Ref → Ref → Prop} {s s' : Session} {o o' : Open} {i i' : NodeId}

namespace Session.Alike

theorem empty (R : Ref → Ref → Prop) : ({} : Session).Alike R {} :=
  ⟨rfl, rfl, fun q _ _ _ => by cases q <;> exact .none⟩

theorem write (h : s.Alike R s') (t : Text) : (s.write t).Alike R (s'.write t) := by
  refine ⟨?_, h.subtraction, fun q _ _ hi => ?_⟩
  · rw [Session.write, Session.write, h.out]
  · rw [s.kept_write, s'.kept_write]
    exact h.kept q hi

theorem separateEscape (h : s.Alike R s') (place : Nat) :
    (s.separateEscape place).Alike R (s'.separateEscape place) := by
  refine ⟨?_, h.subtraction, fun q _ _ hi => ?_⟩
  · rw [Session.separateEscape, Session.separateEscape, h.out]
  · rw [s.kept_separateEscape, s'.kept_separateEscape]
    exact h.kept q hi

theorem subtract (h : s.Alike R s') :
    ({ s with subtraction := true } : Session).Alike R { s' with subtraction := true } := by
  refine ⟨h.out, rfl, fun q _ _ hi => ?_⟩
  rw [s.kept_subtraction, s'.kept_subtraction]
  exact h.kept q hi

/-- Alike answers are kept for related nodes. -/
theorem keep (h : s.Alike R s') (hR : IsOneToOne R) (hi : R (some i) (some i')) {q : Question}
    {a a' : q.Answer} (ha : q.Alike R a a') : (s.keep q i a).Alike R (s'.keep q i' a') := by
  refine ⟨?_, ?_, fun p j j' hj => ?_⟩
  · rw [out_keep, out_keep, h.out]
  · rw [subtraction_keep, subtraction_keep, h.subtraction]
  · by_cases hp : p = q
    · subst hp
      rw [kept_keep_self, kept_keep_self, lookup_cons, lookup_cons]
      by_cases hji : j = i
      · rw [beq_iff_eq.2 hji, beq_iff_eq.2 ((hR hj hi).1 hji)]
        exact .some ha
      · rw [beq_false_of_ne hji, beq_false_of_ne fun h => hji ((hR hj hi).2 h)]
        exact h.kept p hj
    · rw [kept_keep_of_ne hp, kept_keep_of_ne hp]
      exact h.kept p hj

end Session.Alike

namespace Open.Alike

theorem none (R : Ref → Ref → Prop) : Open.none.Alike R Open.none := fun _ => .nil

/-- A question is opened about related nodes. -/
theorem enter (h : o.Alike R o') (hi : R (some i) (some i')) (q : Question) :
    (o.enter q i).Alike R (o'.enter q i') := by
  intro p
  by_cases hp : p = q
  · subst hp
    rw [Open.enter_self, Open.enter_self]
    exact rel_append (h p) (.cons hi .nil)
  · rw [Open.enter_of_ne o hp, Open.enter_of_ne o' hp]
    exact h p

end Open.Alike

end

/-! ### Questions in step -/

/-- The answers and the sessions after them differ in the numbers of nodes only. -/
abbrev AnswersAlike (R : Ref → Ref → Prop) (q : Question) (x x' : q.Answer × Session) : Prop :=
  q.Alike R x.1 x'.1 ∧ x.2.Alike R x'.2

/-- **Rules that mirror each other do the same in sessions that are alike.** -/
theorem Rule.Mirrors.run_alike {R : Ref → Ref → Prop} {α β : Type} {Q : α → β → Prop} {asking asking' : Asking}
    (hask : ∀ q r r' s s', R r r' → s.Alike R s' →
      AlikeOutcome R (AnswersAlike R q) (asking q r s) (asking' q r' s'))
    {p : Rule α} {p' : Rule β} (h : p.Mirrors R Q p') (base : Nat) {s s' : Session} (hs : s.Alike R s') :
    AlikeOutcome R (fun x x' => Q x.1 x'.1 ∧ x.2.Alike R x'.2) (p.run asking base s) (p'.run asking' base s') := by
  induction h generalizing s s' with
  | done h => exact .ok ⟨h, hs⟩
  | objection h why => exact .error (.invalid h why)
  | fault f => exact .error (.broken f)
  | output t _ ih => exact ih (hs.write t)
  | reading _ ih =>
    rw [run_reading, run_reading, hs.out]
    exact ih _ hs
  | separation place _ ih => exact ih (hs.separateEscape _)
  | subtraction _ ih => exact ih hs.subtract
  | question q hr _ ih =>
    rw [run_question, run_question]
    exact (hask q _ _ s s' hr hs).bind fun x x' hx => ih x.1 x'.1 hx.1 hx.2

section

variable {R : Ref → Ref → Prop} (hR : IsOneToOne R)

include hR

/-- Related nodes are visited alike, if their rules are run alike. -/
theorem visit_alike {keep : Bool} {o o' : Open} (ho : o.Alike R o') {q : Question} {i i' : NodeId}
    (hi : R (some i) (some i')) {rule rule' : Ask q.Answer} {s s' : Session} (hs : s.Alike R s')
    (hrule : AlikeOutcome R (AnswersAlike R q) (rule s) (rule' s')) :
    AlikeOutcome R (AnswersAlike R q) (visit keep o q i rule s) (visit keep o' q i' rule' s') := by
  have hkept : Option.Rel (q.Alike R) (if keep then (s.kept q).lookup i else none)
      (if keep then (s'.kept q).lookup i' else none) := by
    cases keep with
    | false => exact .none
    | true => exact hs.kept q hi
  generalize hk : (if keep then (s.kept q).lookup i else none) = x at hkept
  generalize hk' : (if keep then (s'.kept q).lookup i' else none) = x' at hkept
  cases hkept with
  | some ha =>
    rw [visit_kept hk, visit_kept hk', ← ha.shown_eq]
    exact .ok ⟨ha, hs.write _⟩
  | none =>
    by_cases hopen : i ∈ o q
    · rw [visit_open hk hopen, visit_open hk' ((hR.mem_iff (ho q) hi).1 hopen)]
      exact .error (.recursion _ (rel_append (ho q) (.cons hi .nil)))
    · rw [visit_new hk hopen, visit_new hk' fun h => hopen ((hR.mem_iff (ho q) hi).2 h)]
      refine hrule.bind fun x x' hx => .ok ⟨hx.1, ?_⟩
      cases keep with
      | false => exact hx.2
      | true => exact hx.2.keep hR hi hx.1

namespace Graph

variable {g g' : Graph} (hmirror : g.IsMirror g' R)

include hmirror

/-- Questions about related references are answered alike, level by level. -/
theorem asking_alike (keep : Bool) : ∀ (d : Nat) {o o' : Open}, o.Alike R o' →
    ∀ (q : Question) (r r' : Ref) (s s' : Session), R r r' → s.Alike R s' →
      AlikeOutcome R (AnswersAlike R q) (g.asking keep d o q r s) (g'.asking keep d o' q r' s')
  | 0, _, _, _, _, _, _, _, _, _, _ => .error .exhausted
  | d + 1, o, o', ho, q, r, r', s, s', hr, hs => by
    rw [asking, asking]
    rcases hmirror.deref? hr with ⟨habsent, habsent'⟩ | ⟨n, n', hn, hn', halike⟩
    · rw [level_absent habsent, level_absent habsent']
      refine .ok ⟨?_, hs⟩
      cases q with
      | core => exact hmirror.none
      | text | empty | single => exact rfl
    · obtain ⟨i, rfl, hi⟩ := Option.bind_eq_some_iff.1 hn
      obtain ⟨i', rfl, hi'⟩ := Option.bind_eq_some_iff.1 hn'
      rw [level_node hi, level_node hi']
      refine visit_alike hR ho hr hs ?_
      rw [Rule.start_apply, Rule.start_apply, hs.out]
      exact (halike.rule_mirrors hmirror.looksLike hr q).run_alike (asking_alike keep d (ho.enter hr q)) _ hs

end Graph

end

namespace Graph

/-- The depth of the search does not matter once it is above the number of unopened questions. -/
theorem asking_eq_asking {g : Graph} {keep : Bool} {d d' : Nat} {o : Open} (hd : g.unopened o < d)
    (hd' : g.unopened o < d') : g.asking keep d o = g.asking keep d' o :=
  bounded_eq_bounded (fun F F' o h => level_congr F F' o h) (fun _ => rfl) hd hd'

variable {R : Ref → Ref → Prop} (hR : IsOneToOne R) {g g' : Graph} (hmirror : g.IsMirror g' R)
  {r r' : Ref} (hr : R r r')

include hR hmirror hr

/-- **Questions in graphs that differ in the numbers of nodes have the same outcome.** -/
theorem IsMirror.questions_alike (keep : Bool) (q : Question) :
    AlikeOutcome R (AnswersAlike R q) (g.questions keep q r {}) (g'.questions keep q r' {}) := by
  have hd := g.unopened_lt_depth Open.none
  have hd' := g'.unopened_lt_depth Open.none
  have hdeep : g.asking keep (4 * g.size + 1 + (4 * g'.size + 1)) Open.none = g.questions keep :=
    asking_eq_asking (by omega) hd
  have hdeep' : g'.asking keep (4 * g.size + 1 + (4 * g'.size + 1)) Open.none = g'.questions keep :=
    asking_eq_asking (by omega) hd'
  have halike := asking_alike hR hmirror keep (4 * g.size + 1 + (4 * g'.size + 1)) (.none R) q r r' {} {} hr (.empty R)
  rwa [hdeep, hdeep'] at halike

theorem IsMirror.render_sameOutcome : SameOutcome g g' (g.render r) (g'.render r') := by
  refine hmirror.sameOutcome ((hmirror.questions_alike hR hr true .text).bind fun x x' hx => .ok ?_)
  rw [hx.2.out, hx.2.subtraction]

theorem IsMirror.isEmpty_sameOutcome : SameOutcome g g' (g.isEmpty r) (g'.isEmpty r') :=
  hmirror.sameOutcome <| (hmirror.questions_alike hR hr true .empty).bind fun _ _ hx => .ok (show _ = _ from hx.1)

theorem IsMirror.isSingle_sameOutcome : SameOutcome g g' (g.isSingle r) (g'.isSingle r') :=
  hmirror.sameOutcome <| (hmirror.questions_alike hR hr true .single).bind fun _ _ hx => .ok (show _ = _ from hx.1)

end Graph
end RegexBuilder
