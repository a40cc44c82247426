/-
# Graphs that mirror each other

A relation `R` between the references of two graphs is a *mirror* if the nodes of related references differ in the
numbers of what they refer to only, and that is related again (`Graph.IsMirror`). The rules of two such nodes ask
the same questions in the same order and write the same texts between them (`Rule.Mirrors`), so every question about
the one means the same as about the other, up to `R` (`Graph.IsMirror.meaning`).
-/

import RegexBuilder.Proofs.Meaning

namespace RegexBuilder

open Rule

/-! ### Outcomes and rules that mirror each other -/

/-- The failures differ in the numbers of nodes only. -/
inductive Failure.Alike (R : Ref → Ref → Prop) : Failure → Failure → Prop where
  | invalid {i i' : NodeId} (h : R (some i) (some i')) (why : Objection) :
    Alike R (.invalid i why) (.invalid i' why)
  | recursion (query : Query) {path path' : List NodeId}
    (h : List.Forall₂ (fun i i' => R (some i) (some i')) path path') :
    Alike R (.recursion query path) (.recursion query path')
  | broken (f : Fault) : Alike R (.broken f) (.broken f)
  | exhausted : Alike R .exhausted .exhausted

/-- Answers that are related by `Q`, or failures that are alike. -/
inductive AlikeOutcome {α β : Type} (R : Ref → Ref → Prop) (Q : α → β → Prop) :
    Except Failure α → Except Failure β → Prop where
  | ok {a : α} {b : β} (h : Q a b) : AlikeOutcome R Q (.ok a) (.ok b)
  | error {f f' : Failure} (h : f.Alike R f') : AlikeOutcome R Q (.error f) (.error f')

variable {α β γ : Type} {R : Ref → Ref → Prop}

theorem AlikeOutcome.bind {δ : Type} {Q : α → β → Prop} {Q' : γ → δ → Prop} {x : Except Failure α}
    {y : Except Failure β} {k : α → Except Failure γ} {l : β → Except Failure δ}
    (h : AlikeOutcome R Q x y) (hk : ∀ a b, Q a b → AlikeOutcome R Q' (k a) (l b)) :
    AlikeOutcome R Q' (x >>= k) (y >>= l) := by
  cases h with
  | ok h => exact hk _ _ h
  | error h => exact .error h

theorem AlikeOutcome.imp {Q Q' : α → β → Prop} {x : Except Failure α} {y : Except Failure β}
    (h : AlikeOutcome R Q x y) (hQ : ∀ a b, x = .ok a → Q a b → Q' a b) : AlikeOutcome R Q' x y := by
  cases h with
  | ok h => exact .ok (hQ _ _ rfl h)
  | error h => exact .error h

/-- Failures that are alike in the same numbers are the same. -/
theorem Failure.Alike.eq {f f' : Failure} (h : f.Alike R f') (hR : ∀ r r', R r r' → r = r') : f = f' := by
  cases h with
  | invalid hi why => rw [Option.some.inj (hR _ _ hi)]
  | recursion query hpath =>
    have hpath := hpath.imp fun _ _ hi => Option.some.inj (hR _ _ hi)
    rw [List.forall₂_eq_eq_eq] at hpath
    rw [hpath]
  | broken | exhausted => rfl

/-- Answers to a question that differ in the number of a node only. -/
def Question.Alike (R : Ref → Ref → Prop) : (q : Question) → q.Answer → q.Answer → Prop
  | core, u, u' => R u u'
  | text, t, t' => t = t'
  | empty, b, b' | single, b, b' => b = b'

/-- Alike answers show the same text. -/
theorem Question.Alike.shown_eq {q : Question} {a a' : q.Answer} (h : q.Alike R a a') : q.shown a = q.shown a' := by
  cases q with
  | text => exact h
  | core | empty | single => rfl

namespace Rule

/-- The two rules do the same, about references that are related by `R`, and end with answers that
are related by `Q`. -/
inductive Mirrors (R : Ref → Ref → Prop) {α β : Type} (Q : α → β → Prop) :
    Rule α → Rule β → Prop where
  | done {a : α} {b : β} (h : Q a b) : Mirrors R Q (done a) (done b)
  | objection {i i' : NodeId} (h : R (some i) (some i')) (why : Objection) :
    Mirrors R Q (objection i why) (objection i' why)
  | fault (f : Fault) : Mirrors R Q (fault f) (fault f)
  | output (t : Text) {p : Rule α} {p' : Rule β} (h : Mirrors R Q p p') :
    Mirrors R Q (output t p) (output t p')
  | reading {p : Text → Rule α} {p' : Text → Rule β} (h : ∀ t, Mirrors R Q (p t) (p' t)) :
    Mirrors R Q (reading p) (reading p')
  | separation (place : Nat) {p : Rule α} {p' : Rule β} (h : Mirrors R Q p p') :
    Mirrors R Q (separation place p) (separation place p')
  | subtraction {p : Rule α} {p' : Rule β} (h : Mirrors R Q p p') :
    Mirrors R Q (subtraction p) (subtraction p')
  | question (q : Question) {r r' : Ref} (hr : R r r') {p : q.Answer → Rule α}
    {p' : q.Answer → Rule β} (h : ∀ a a', q.Alike R a a' → Mirrors R Q (p a) (p' a')) :
    Mirrors R Q (question q r p) (question q r' p')

namespace Mirrors

variable {R : Ref → Ref → Prop} {α β γ δ : Type} {Q : α → β → Prop} {Q' : γ → δ → Prop}

theorem bind {p : Rule α} {p' : Rule β} {k : α → Rule γ} {k' : β → Rule δ} (h : p.Mirrors R Q p')
    (hk : ∀ a b, Q a b → (k a).Mirrors R Q' (k' b)) : (p >>= k).Mirrors R Q' (p' >>= k') := by
  induction h with
  | done h => exact hk _ _ h
  | objection h why => exact .objection h why
  | fault f => exact .fault f
  | output t _ ih => exact .output t ih
  | reading _ ih => exact .reading ih
  | separation place _ ih => exact .separation place ih
  | subtraction _ ih => exact .subtraction ih
  | question q hr _ ih => exact .question q hr ih

theorem ask (q : Question) {r r' : Ref} (h : R r r') :
    (Rule.ask q r).Mirrors R (q.Alike R) (Rule.ask q r') := .question q h fun _ _ ha => .done ha

theorem write {r r' : Ref} (h : R r r') : (Rule.write r).Mirrors R Eq (Rule.write r') :=
  .question .text h fun _ _ _ => .done rfl

theorem emit (t : Text) : (Rule.emit t).Mirrors R Eq (Rule.emit t) := .output t (.done rfl)

theorem ofResult {i i' : NodeId} (h : R (some i) (some i')) (x : Except Objection α) :
    (Rule.ofResult i x).Mirrors R Eq (Rule.ofResult i' x) := by
  cases x with
  | error why => exact .objection h why
  | ok => exact .done rfl

/-- **Rules that mirror each other have outcomes that are alike,** if that is so of what they ask. -/
theorem eval {A A' : Oracle} (hA : ∀ q r r', R r r' →
      AlikeOutcome R (fun x x' => q.Alike R x.1 x'.1 ∧ x.2 = x'.2) (A q r) (A' q r'))
    {p : Rule α} {p' : Rule β} (h : p.Mirrors R Q p') (dr : Draft) :
    AlikeOutcome R (fun x x' => Q x.1 x'.1 ∧ x.2 = x'.2) (p.eval A dr) (p'.eval A' dr) := by
  induction h generalizing dr with
  | done h => exact .ok ⟨h, rfl⟩
  | objection h why => exact .error (.invalid h why)
  | fault f => exact .error (.broken f)
  | output t _ ih | separation place _ ih | subtraction _ ih => exact ih _
  | reading _ ih => exact ih _ _
  | question q hr _ ih =>
    refine (hA q _ _ hr).bind ?_
    rintro ⟨a, fl⟩ ⟨a', _⟩ ⟨ha, rfl⟩
    have hdr : dr.answered (q := q) (a, fl) = dr.answered (a', fl) := by
      rw [Draft.answered, Draft.answered, ha.shown_eq]
    rw [hdr]
    exact ih a a' ha _

/-- Rules that mirror each other about the same references are one rule. -/
theorem eq {q : Question} {p p' : Rule q.Answer} (h : p.Mirrors Eq (q.Alike Eq) p') : p = p' := by
  have hsame : ∀ {q : Question} {a a' : q.Answer}, q.Alike Eq a a' ↔ a = a' := fun {q _ _} => by cases q <;> exact .rfl
  induction h with
  | done h => exact congrArg Rule.done (hsame.1 h)
  | objection h why =>
    cases h
    rfl
  | fault => rfl
  | output t _ ih | separation place _ ih | subtraction _ ih => rw [ih]
  | reading _ ih => exact congrArg Rule.reading (funext ih)
  | question q hr _ ih =>
    cases hr
    exact congrArg _ (funext fun a => ih a a (hsame.2 rfl))

end Mirrors
end Rule

/-! ### Graphs -/

/-- Two references that are related by `R` are both absent, or lead to nodes that are related by `S`. -/
def Graph.Pairs (g g' : Graph) (R : Ref → Ref → Prop) (S : Node → Node → Prop) : Prop :=
  ∀ ⦃r r'⦄, R r r' → (g.deref? r = none ∧ g'.deref? r' = none) ∨
    ∃ n n', g.deref? r = some n ∧ g'.deref? r' = some n' ∧ S n n'

/-- References that are related by `R` lead to nodes that differ in their references only, which are again
related by `R`. -/
structure Graph.IsMirror (g g' : Graph) (R : Ref → Ref → Prop) : Prop where
  none : R none none
  deref? : g.Pairs g' R (Node.Alike R)

/-- The nodes are alike, or quantifiers with the same bounds: no other node looks at what is quantified. -/
inductive Node.LooksLike (R : Ref → Ref → Prop) : Node → Node → Prop where
  | alike {n n' : Node} (h : n.Alike R n') : LooksLike R n n'
  | quantified (b : Bounds) (c c' : Ref) : LooksLike R (quantified b c) (quantified b c')

theorem Graph.IsMirror.looksLike {g g' : Graph} (hR : g.IsMirror g' R) : g.Pairs g' R (Node.LooksLike R) :=
  fun _ _ h => (hR.deref? h).imp_right fun ⟨n, n', hr, hr', hn⟩ => ⟨n, n', hr, hr', .alike hn⟩

section

variable {g g' : Graph} {R : Ref → Ref → Prop} (hR : g.Pairs g' R (Node.LooksLike R))

include hR

variable {r r' : Ref}

theorem isAbsent_alike (h : R r r') : g.isAbsent r = g'.isAbsent r' := by
  rcases hR h with ⟨hr, hr'⟩ | ⟨n, n', hr, hr', -⟩
  · rw [Graph.isAbsent, Graph.isAbsent, hr, hr']
  · rw [Graph.isAbsent, Graph.isAbsent, hr, hr']
    rfl

theorem isOpenAlternation_alike (h : R r r') : isOpenAlternation g r = isOpenAlternation g' r' := by
  unfold isOpenAlternation
  rcases hR h with ⟨hr, hr'⟩ | ⟨n, n', hr, hr', ⟨⟨⟩⟩ | _⟩ <;> rw [hr, hr']
  -- only an alternation is looked at, for how many branches it has
  case alternation h => match h with | .nil | .cons _ .nil | .cons _ (.cons _ _) => rfl

/-- The same objection is made to a quantifier after either. -/
theorem quantifierObjection?_alike (h : R r r') :
    quantifierObjection? g (g.deref? r) = quantifierObjection? g' (g'.deref? r') := by
  rcases hR h with ⟨hr, hr'⟩ | ⟨n, n', hr, hr', hn⟩
  · rw [hr, hr']
    rfl
  · rw [hr, hr']
    cases hn with
    | quantified => rfl
    | alike hn =>
      cases hn with
      | leaf l => cases l <;> rfl
      | modified on off h =>
        rw [quantifierObjection?, quantifierObjection?, isAbsent_alike hR h]
      | set | concat | alternation | quantified | group | enclosed | conditional => rfl

/-- Either is the same character, or neither is one. -/
theorem character?_alike (h : R r r') : g.character? r = g'.character? r' := by
  unfold Graph.character?
  rcases hR h with ⟨hr, hr'⟩ | ⟨n, n', hr, hr', ⟨⟨⟩⟩ | _⟩ <;> rw [hr, hr']

/-- Either is written in the same way as a member of a set. -/
theorem memberForm?_alike (h : R r r') : g.memberForm? r = g'.memberForm? r' := by
  unfold Graph.memberForm?
  rcases hR h with ⟨hr, hr'⟩ | ⟨n, n', hr, hr', ⟨⟨⟩⟩ | _⟩ <;> rw [hr, hr']

end

namespace CharacterSet.Alike

theorem isEmpty_eq {α β : Type} {R : α → β → Prop} {l : List α} {l' : List β}
    (h : List.Forall₂ R l l') : l.isEmpty = l'.isEmpty := by
  cases h <;> rfl

variable {R : Ref → Ref → Prop} {s s' : CharacterSet Ref}

theorem hasBase_eq (h : s.Alike R s') : s.hasBase = s'.hasBase := by
  rw [hasBase, hasBase, isEmpty_eq h.ranges, isEmpty_eq h.members]

theorem hasSubtraction_eq (h : s.Alike R s') : s.hasSubtraction = s'.hasSubtraction := by
  rw [hasSubtraction, hasSubtraction, isEmpty_eq h.subtractedRanges, isEmpty_eq h.subtractedMembers]

/-- The same element is written in place of either set. -/
theorem only?_alike (h : s.Alike R s') (ranges : List (Range Character)) :
    (s.only? ranges = none ∧ s'.only? ranges = none) ∨
      ∃ r r', s.only? ranges = some r ∧ s'.only? ranges = some r' ∧ R r r' := by
  have hsub := h.hasSubtraction_eq
  obtain ⟨hranges, hmembers, -, -, hnegated⟩ := h
  unfold only?
  rw [hsub, hnegated]
  by_cases hplain : (s'.negated || s'.hasSubtraction) = true
  · rw [if_pos hplain, if_pos hplain]
    exact .inl ⟨rfl, rfl⟩
  · rw [if_neg hplain, if_neg hplain]
    generalize s.ranges = rs at hranges ⊢
    generalize s'.ranges = rs' at hranges ⊢
    generalize s.members = ms at hmembers ⊢
    generalize s'.members = ms' at hmembers ⊢
    match hranges, hmembers, ranges with
    | .nil, .nil, _ => exact .inl ⟨rfl, rfl⟩
    | .nil, .cons hm .nil, _ => exact .inr ⟨_, _, rfl, rfl, hm⟩
    | .nil, .cons _ (.cons _ _), _ => exact .inl ⟨rfl, rfl⟩
    | .cons hr .nil, .nil, [c] =>
      dsimp only
      split
      · exact .inr ⟨_, _, rfl, rfl, hr.1⟩
      · exact .inl ⟨rfl, rfl⟩
    | .cons _ .nil, .nil, [] => exact .inl ⟨rfl, rfl⟩
    | .cons _ .nil, .nil, _ :: _ :: _ => exact .inl ⟨rfl, rfl⟩
    | .cons _ .nil, .cons _ _, [] => exact .inl ⟨rfl, rfl⟩
    | .cons _ .nil, .cons _ _, [_] => exact .inl ⟨rfl, rfl⟩
    | .cons _ .nil, .cons _ _, _ :: _ :: _ => exact .inl ⟨rfl, rfl⟩
    | .cons _ (.cons _ _), _, _ => exact .inl ⟨rfl, rfl⟩

end CharacterSet.Alike

section

variable {g g' : Graph} {R : Ref → Ref → Prop} (hR : g.Pairs g' R (Node.LooksLike R))

include hR

/-- Ranges between the same characters resolve to the same ranges. -/
theorem resolveRanges_alike {rs rs' : List (Range Ref)} (h : List.Forall₂ (Range.Alike R) rs rs') :
    CharacterSet.resolveRanges g rs = CharacterSet.resolveRanges g' rs' := by
  refine mapM_eq_of_forall₂ (h.imp fun r r' hr => ?_)
  rw [Range.mapM?, Range.mapM?, character?_alike hR hr.1, character?_alike hR hr.2]

/-- Alike contents of sets are written in the same way. -/
theorem contents_alike {ms ms' : List Ref} (h : List.Forall₂ R ms ms') (ranges : List (Range Character)) :
    CharacterSet.contents g ranges ms = CharacterSet.contents g' ranges ms' := by
  have hforms : CharacterSet.memberForms g ms = CharacterSet.memberForms g' ms' := by
    refine mapM_eq_of_forall₂ (h.imp fun m m' hm => ?_)
    rw [memberForm?_alike hR hm]
  rw [CharacterSet.contents, CharacterSet.contents, hforms]

variable {s s' : CharacterSet Ref} {p p' : Rule Unit} {r r' e e' : Ref} {rs rs' : List Ref}

/-- Alike sets have the same text between brackets. -/
theorem bracketed_alike (h : s.Alike R s') (ranges subtracted : List (Range Character)) :
    s.bracketed g ranges subtracted = s'.bracketed g' ranges subtracted := by
  rw [CharacterSet.bracketed, CharacterSet.bracketed, contents_alike hR h.members,
    contents_alike hR h.subtractedMembers, h.hasSubtraction_eq, h.negated]

omit hR in
theorem nonEmpty_mirrors {cs cs' : List Ref} (h : List.Forall₂ R cs cs') :
    (nonEmpty cs).Mirrors R (List.Forall₂ R) (nonEmpty cs') := by
  induction h with
  | nil => exact .done .nil
  | cons hc _ ih =>
    refine (Mirrors.ask .empty hc).bind ?_
    rintro b _ rfl
    refine ih.bind fun rs rs' hrs => .done ?_
    cases b with
    | true => exact hrs
    | false => exact .cons hc hrs

omit hR in
theorem parenthesized_mirrors (opening : Text) (h : p.Mirrors R Eq p') :
    (do Rule.emit opening; p; Rule.emit ")" : Rule Unit).Mirrors R Eq
      (do Rule.emit opening; p'; Rule.emit ")" : Rule Unit) :=
  (Mirrors.emit opening).bind fun _ _ _ => h.bind fun _ _ _ => .emit _

omit hR in
theorem writeSingle_mirrors (h : R r r') : (writeSingle r).Mirrors R Eq (writeSingle r') := by
  refine (Mirrors.ask .single h).bind ?_
  rintro b _ rfl
  cases b with
  | true => exact .write h
  | false => exact parenthesized_mirrors _ (.write h)

theorem writeBranch_mirrors (h : R r r') : (writeBranch g r).Mirrors R Eq (writeBranch g' r') := by
  refine (Mirrors.ask .core h).bind fun u u' (hu : R u u') => ?_
  rw [isOpenAlternation_alike hR hu]
  split
  · exact parenthesized_mirrors _ (.write hu)
  · exact .write hu

/-- By induction on the children: each is written after the same text. -/
theorem writeRest_mirrors (h : List.Forall₂ R rs rs') : (writeRest g rs).Mirrors R Eq (writeRest g' rs') := by
  induction h with
  | nil => exact .done rfl
  | cons hr _ ih =>
    refine .reading fun t => (writeBranch_mirrors hR hr).bind fun _ _ _ => ?_
    exact .separation _ ih

omit hR in
theorem writeBranches_mirrors (h : List.Forall₂ R rs rs') : (writeBranches rs).Mirrors R Eq (writeBranches rs') := by
  induction h with
  | nil => exact .done rfl
  | cons hr _ ih => exact .output _ ((Mirrors.write hr).bind fun _ _ _ => ih)

variable {i i' : NodeId} (hi : R (some i) (some i'))

include hi

omit hR in
/-- Neither is written if one is empty. -/
theorem writeGroup_mirrors (opening : Text) (h : p.Mirrors R Eq p') :
    (writeGroup i opening p).Mirrors R Eq (writeGroup i' opening p') := by
  refine (Mirrors.ask .empty hi).bind ?_
  rintro b _ rfl
  cases b with
  | true => exact .done rfl
  | false => exact parenthesized_mirrors _ h

omit hR in
/-- The same condition is written, or objected to. -/
theorem writeCondition_mirrors (c : Condition) (h : R e e') :
    (writeCondition i c e).Mirrors R Eq (writeCondition i' c e') := by
  unfold writeCondition
  split
  · split
    · exact .objection hi _
    · exact .emit _
  · split
    · exact .objection hi _
    · exact .emit _
  · refine (Mirrors.ask .empty h).bind ?_
    rintro b _ rfl
    cases b with
    | true => exact .objection hi _
    | false => exact .write h
  · exact .objection hi _

theorem writeConditional_mirrors (c : Condition) {yes yes' no no' : Ref} (he : R e e')
    (hyes : R yes yes') (hno : R no no') :
    (writeConditional g i c e yes no).Mirrors R Eq (writeConditional g' i' c e' yes' no') := by
  refine (writeCondition_mirrors hi c he).bind fun _ _ _ => ?_
  refine (Mirrors.emit _).bind fun _ _ _ => ?_
  refine (writeBranch_mirrors hR hyes).bind fun _ _ _ => ?_
  refine (Mirrors.ask .empty hno).bind ?_
  rintro b _ rfl
  cases b with
  | true => exact .done rfl
  | false => exact (Mirrors.emit _).bind fun _ _ _ => writeBranch_mirrors hR hno

/-- Alike sets write the same text, or write members that are alike. -/
theorem writeSet_mirrors (h : s.Alike R s') : (writeSet g i s).Mirrors R Eq (writeSet g' i' s') := by
  unfold writeSet
  rw [h.hasBase_eq, h.hasSubtraction_eq]
  split
  · split
    · exact .objection hi _
    · exact .done rfl
  · rw [resolveRanges_alike hR h.ranges, resolveRanges_alike hR h.subtractedRanges]
    refine (Mirrors.ofResult hi _).bind ?_
    rintro ranges _ rfl
    refine (Mirrors.ofResult hi _).bind ?_
    rintro subtracted _ rfl
    rcases h.only?_alike ranges with ⟨hnone, hnone'⟩ | ⟨r, r', hr, hr', hrr'⟩
    · rw [hnone, hnone', bracketed_alike hR h]
      refine (Mirrors.ofResult hi _).bind ?_
      rintro t _ rfl
      split
      · exact .subtraction (.emit t)
      · exact .emit t
    · rw [hr, hr']
      exact .write hrr'

/-- What is quantified comes down to alike nodes, which are written alike. -/
theorem writeQuantified_mirrors (b : Bounds) {c c' : Ref} (h : R c c') :
    (writeQuantified g i b c).Mirrors R Eq (writeQuantified g' i' b c') := by
  refine (Mirrors.ask .empty hi).bind ?_
  rintro e _ rfl
  cases e with
  | true => exact .done rfl
  | false =>
    refine (Mirrors.ask .core h).bind fun u u' (hu : R u u') => ?_
    rw [quantifierObjection?_alike hR hu]
    split
    · exact .fault _
    · exact .objection hi _
    · split
      · exact .write hu
      · exact (writeSingle_mirrors hu).bind fun _ _ _ => .emit _

end

namespace Node.Alike

variable {g g' : Graph} {R : Ref → Ref → Prop} (hR : g.Pairs g' R (Node.LooksLike R)) {i i' : NodeId}
  (hi : R (some i) (some i')) {n n' : Node}

include hR hi

/-- Alike nodes write the same, child by child. -/
theorem write_mirrors (h : n.Alike R n') : (n.write g i).Mirrors R Eq (n'.write g' i') := by
  cases h with
  | leaf =>
    refine (Mirrors.ofResult hi _).bind ?_
    rintro t _ rfl
    exact .emit t
  | set h => exact writeSet_mirrors hR hi h
  | concat h =>
    refine (nonEmpty_mirrors h).bind fun rs rs' hrs => ?_
    match hrs with
    | .nil => exact .done rfl
    | .cons hr .nil => exact .write hr
    | .cons hr (.cons hr' hrest) =>
      exact (writeBranch_mirrors hR hr).bind fun _ _ _ => writeRest_mirrors hR (.cons hr' hrest)
  | alternation h =>
    cases h with
    | nil => exact .done rfl
    | cons hr hrest => exact (Mirrors.write hr).bind fun _ _ _ => writeBranches_mirrors hrest
  | quantified b h => exact writeQuantified_mirrors hR hi b h
  | group h => exact .write h
  | enclosed how h => exact writeGroup_mirrors hi _ (.write h)
  | conditional t he hyes hno =>
    exact writeGroup_mirrors hi _ (writeConditional_mirrors hR hi t he hyes hno)
  | modified on off h =>
    rw [Node.write, Node.write, optionsOpening, optionsOpening, isAbsent_alike hR h]
    refine writeGroup_mirrors hi _ ?_
    split
    · exact .write h
    · exact .objection hi _

/-- Alike nodes ask the same to tell whether they are empty. -/
theorem isEmpty_mirrors (h : n.Alike R n') : (n.isEmpty g i).Mirrors R Eq (n'.isEmpty g' i') := by
  have hask : ∀ {r r'}, R r r' → (Rule.ask .empty r).Mirrors R Eq (Rule.ask .empty r') := fun hr => .ask .empty hr
  cases h with
  | leaf => exact .done rfl
  | set h =>
    rw [Node.isEmpty, Node.isEmpty, h.hasBase_eq, h.hasSubtraction_eq]
    exact .done rfl
  | concat h =>
    refine (nonEmpty_mirrors h).bind fun rs rs' hrs => .done ?_
    exact CharacterSet.Alike.isEmpty_eq hrs
  | alternation h =>
    match h with
    | .nil | .cons _ (.cons _ _) => exact .done rfl
    | .cons hr .nil => exact hask hr
  | quantified b h =>
    rw [Node.isEmpty, Node.isEmpty]
    split
    · exact .objection hi _
    · split
      · exact .done rfl
      · exact (Mirrors.ask .core h).bind fun u u' hu => hask hu
  | group h => exact hask h
  | enclosed how h =>
    cases how with
    | look =>
      rw [Node.isEmpty, Node.isEmpty]
      split
      · exact .done rfl
      · exact hask h
    | capture | named | balancing | atomic => exact hask h
  | conditional t he hyes hno =>
    refine (hask hyes).bind ?_
    rintro b _ rfl
    cases b with
    | true => exact hask hno
    | false => exact .done rfl
  | modified on off h =>
    rw [Node.isEmpty, Node.isEmpty, isAbsent_alike hR h]
    split
    · exact .done rfl
    · exact hask h

omit hR in
/-- Alike nodes ask the same to tell whether they are single. -/
theorem isSingle_mirrors (h : n.Alike R n') : (n.isSingle i).Mirrors R Eq (n'.isSingle i') := by
  have hask : ∀ {r r'}, R r r' → (Rule.ask .single r).Mirrors R Eq (Rule.ask .single r') := fun hr => .ask .single hr
  cases h with
  | concat h =>
    refine (nonEmpty_mirrors h).bind fun rs rs' hrs => ?_
    match hrs with
    | .nil | .cons _ (.cons _ _) => exact .done rfl
    | .cons hr .nil => exact hask hr
  | alternation h =>
    match h with
    | .nil | .cons _ (.cons _ _) => exact .done rfl
    | .cons hr .nil => exact hask hr
  | quantified b h =>
    refine (Mirrors.ask .empty hi).bind ?_
    rintro e _ rfl
    cases e with
    | true => exact .done rfl
    | false =>
      show (if b.isOnce then Rule.ask .single _ else pure false : Rule Bool).Mirrors R Eq
        (if b.isOnce then Rule.ask .single _ else pure false)
      split
      · exact hask h
      · exact .done rfl
  | group h => exact hask h
  | leaf | set | enclosed | conditional | modified => exact .done rfl

theorem core_mirrors (h : n.Alike R n') : (n.core g i).Mirrors R R (n'.core g' i') := by
  have hask : ∀ {r r'}, R r r' → (Rule.ask .core r).Mirrors R R (Rule.ask .core r') := fun hr => .ask .core hr
  cases h with
  | concat h =>
    refine (nonEmpty_mirrors h).bind fun rs rs' hrs => ?_
    match hrs with
    | .nil | .cons _ (.cons _ _) => exact .done hi
    | .cons hr .nil => exact hask hr
  | alternation h =>
    match h with
    | .nil | .cons _ (.cons _ _) => exact .done hi
    | .cons hr .nil => exact hask hr
  | quantified b h =>
    rw [Node.core, Node.core]
    split
    · exact hask h
    · exact .done hi
  | group h =>
    rw [Node.core, Node.core, isAbsent_alike hR h]
    split
    · exact .done hi
    · exact hask h
  | leaf | set | enclosed | conditional | modified => exact .done hi

/-- **The rules of alike nodes mirror each other.** -/
theorem rule_mirrors (h : n.Alike R n') (q : Question) : (n.rule g i q).Mirrors R (q.Alike R) (n'.rule g' i' q) := by
  cases q with
  | text => exact (h.write_mirrors hR hi).bind fun _ _ _ => .reading fun _ => .done rfl
  | core => exact h.core_mirrors hR hi
  | empty => exact h.isEmpty_mirrors hR hi
  | single => exact h.isSingle_mirrors hi

end Node.Alike

/-- **Every question means the same about patterns that are alike.** -/
theorem Graph.IsMirror.meaning {g g' : Graph} (hR : g.IsMirror g' R) :
    ∀ (e : Nat) (q : Question) (r r' : Ref), R r r' →
      AlikeOutcome R (fun x x' => q.Alike R x.1 x'.1 ∧ x.2 = x'.2) (g.meaning e q r) (g'.meaning e q r')
  | 0, _, _, _, _ => .error .exhausted
  | e + 1, q, r, r', h => by
    rcases hR.deref? h with ⟨hr, hr'⟩ | ⟨n, n', hr, hr', hn⟩
    · rw [meaning_absent hr, meaning_absent hr']
      refine .ok ⟨?_, rfl⟩
      cases q with
      | core => exact hR.none
      | text | empty | single => exact rfl
    · obtain ⟨i, rfl, hi⟩ := Option.bind_eq_some_iff.1 hr
      obtain ⟨i', rfl, hi'⟩ := Option.bind_eq_some_iff.1 hr'
      rw [meaning_node hi, meaning_node hi', answerOf, answerOf]
      refine ((hn.rule_mirrors hR.looksLike h q).eval (hR.meaning e) {}).bind ?_
      rintro ⟨a, dr⟩ ⟨a', _⟩ ⟨ha, rfl⟩
      exact .ok ⟨ha, rfl⟩

end RegexBuilder
