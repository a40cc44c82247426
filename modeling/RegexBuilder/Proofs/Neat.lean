/-
# Rules write neatly

A rule is *neat* if it asks only where its own text is complete and keeps no digit apart at the very place where its
text begins. Then nothing that it writes depends on what stands before it in the output. The second condition is
where emptiness matters: a child of a sequence that is not empty is written as something (`Oracle.IsNeat.filled`),
so the place behind the first child is not the first place.
-/

import RegexBuilder.Proofs.Descent
import RegexBuilder.Proofs.Escape
import RegexBuilder.Proofs.Meaning

namespace RegexBuilder

open List Option Rule Text

/-- A graph in which no raw text ends in the middle of an escape, classes have a declared kind and members of sets are
characters or classes. -/
structure Graph.IsTidy (g : Graph) : Prop where
  raw : ∀ {i t}, g.node? i = some (.leaf (.raw t)) → t.IsComplete
  kind : ∀ {i c code}, g.node? i = some (.leaf (.charClass c)) → c.kind ≠ .undeclared code
  member : ∀ {i s m}, g.node? i = some (.set s) → m ∈ s.members ++ s.subtractedMembers →
    g.memberForm? m ≠ none

/-! ### Neat rules -/

/-- Asking anything but a text leaves the text as it is. -/
theorem Draft.text_answered (dr : Draft) {q : Question} (hq : q ≠ .text) (x : q.Answer × Bool) :
    (dr.answered x).text = dr.text := by
  cases q with
  | text => exact absurd rfl hq
  | core | empty | single => exact List.append_nil _

namespace Rule

/-- Every question is asked where the draft is complete, nothing is kept apart at the beginning, and
the answer and the draft at the end satisfy `Q`. -/
def Neat {α : Type} (A : Oracle) (Q : α → Draft → Prop) : Rule α → Draft → Prop
  | done a, dr => Q a dr
  | objection _ _, _ | fault _, _ => True
  | output t next, dr => next.Neat A Q (dr.write t)
  | reading next, dr => (next dr.text).Neat A Q dr
  | separation place next, dr =>
    0 < place ∧ next.Neat A Q { dr with text := Session.separate place dr.text }
  | subtraction next, dr => next.Neat A Q { dr with subtraction := true }
  | question q r next, dr =>
    dr.text.IsComplete ∧ ∀ x, A q r = .ok x → (next x.1).Neat A Q (dr.answered x)

namespace Neat

variable {α β : Type} {p : Rule α} {k : α → Rule β} {A B : Oracle} {Q : α → Draft → Prop} {R : β → Draft → Prop}
  {dr : Draft}

/-- **Neat rules are put together from neat parts,** also with fewer answers. Where a part ends its outcome is known. -/
theorem bind_eval (h : p.Neat B Q dr) (hAB : ∀ q r x, A q r = .ok x → B q r = .ok x)
    (hk : ∀ a dr', Q a dr' → p.eval A dr = .ok (a, dr') → (k a).Neat A R dr') : (p >>= k).Neat A R dr := by
  induction p generalizing dr with
  | done a => exact hk a dr h rfl
  | objection | fault => trivial
  | output t next ih | subtraction next ih => exact ih h hk
  | reading next ih => exact ih _ h hk
  | separation place next ih => exact ⟨h.1, ih h.2 hk⟩
  | question q r next ih =>
    refine ⟨h.1, fun x hx => ih x.1 (h.2 x (hAB q r x hx)) fun a dr' hQ heval => hk a dr' hQ ?_⟩
    rw [eval, hx]
    exact heval

theorem bind (h : p.Neat A Q dr) (hk : ∀ a dr', Q a dr' → (k a).Neat A R dr') :
    (p >>= k).Neat A R dr := h.bind_eval (fun _ _ _ => id) fun a dr' hQ _ => hk a dr' hQ

theorem of_answers (h : p.Neat B Q dr) (hAB : ∀ q r x, A q r = .ok x → B q r = .ok x) : p.Neat A Q dr :=
  p.bind_done ▸ h.bind_eval hAB fun _ _ hQ _ => hQ

theorem of_eval_eq_ok (h : p.Neat A Q dr) {a : α} {dr' : Draft} (hp : p.eval A dr = .ok (a, dr')) : Q a dr' := by
  induction p generalizing dr with
  | done =>
    cases hp
    exact h
  | objection | fault => cases hp
  | output t next ih | subtraction next ih => exact ih h hp
  | reading next ih => exact ih _ h hp
  | separation place next ih => exact ih h.2 hp
  | question q r next ih =>
    obtain ⟨x, hx, hp⟩ := bind_eq_ok.1 hp
    exact ih x.1 (h.2 x hx) hp

theorem mono {Q' : α → Draft → Prop} (h : p.Neat A Q dr)
    (hQ : ∀ a dr', Q a dr' → Q' a dr') : p.Neat A Q' dr := p.bind_done ▸ h.bind hQ

theorem ask {q : Question} {r : Ref} {Q : q.Answer → Draft → Prop} (hdr : dr.text.IsComplete)
    (h : ∀ x, A q r = .ok x → Q x.1 (dr.answered x)) : (Rule.ask q r).Neat A Q dr := ⟨hdr, h⟩

theorem ask_bind {q : Question} (hq : q ≠ .text) {r : Ref} {k : q.Answer → Rule α} (hdr : dr.text.IsComplete)
    (h : ∀ x dr', A q r = .ok x → dr'.text = dr.text → (k x.1).Neat A Q dr') : (Rule.ask q r >>= k).Neat A Q dr :=
  ⟨hdr, fun x hx => h x _ hx (dr.text_answered hq x)⟩

theorem ofResult {i : NodeId} {x : Except Objection α} (h : ∀ a, x = .ok a → Q a dr) :
    (Rule.ofResult i x).Neat A Q dr := by
  cases x with
  | error => trivial
  | ok a => exact h a rfl

end Neat

/-- **A rule that is not for a text writes nothing.** -/
theorem Follows.neat {α : Type} {g : Graph} {A : Oracle}
    (hA : ∀ q r x, A q r = .ok x → q.Sound g r x.1) {i : NodeId} {own : Question} {Q : α → Prop}
    (hown : own ≠ .text) {p : Rule α} (h : p.Follows g i own Q) {dr : Draft}
    (hdr : dr.text.IsComplete) : p.Neat A (fun a dr' => Q a ∧ dr'.text = dr.text) dr := by
  induction p generalizing dr with
  | done => exact ⟨h, rfl⟩
  | objection | fault => trivial
  | output | reading | separation | subtraction => exact absurd h.1 hown
  | question q r next ih =>
    refine ⟨hdr, fun x hx => ?_⟩
    have htext := dr.text_answered (h.1.ne_text hown) x
    have hnext := ih x.1 (h.2 x.1 (hA q r x hx)) (htext ▸ hdr)
    rw [htext] at hnext
    exact hnext

end Rule

namespace Graph

variable {g : Graph}

/-- What a question means is a sound answer. -/
theorem sound_of_meaning_eq_ok : ∀ (e : Nat) (q : Question) (r : Ref) (x : q.Answer × Bool),
    g.meaning e q r = .ok x → q.Sound g r x.1
  | 0, _, _, _, h => nomatch h
  | e + 1, q, r, x, h => by
    cases q with
    | text | empty | single => trivial
    | core =>
      rcases g.absent_or_node r with hr | ⟨i, n, rfl, hn⟩
      · rw [meaning_absent hr] at h
        cases h
        exact fun _ _ hj _ => nomatch hj
      · obtain ⟨_, dr, ⟨⟩, hu⟩ := exists_eval_of_meaning hn h
        have hfollows := Node.rule_follows hn .core
        exact ((hfollows.neat (sound_of_meaning_eq_ok e) (by decide) isComplete_nil).of_eval_eq_ok hu).1

/-! ### What is not empty -/

/-- What is referred to means something that is not empty. -/
def IsFilled (g : Graph) (r : Ref) : Prop := ∃ e fl, g.meaning e .empty r = .ok (false, fl)

theorem not_isFilled_of_empty {e : Nat} {r : Ref} {fl : Bool}
    (h : g.meaning e .empty r = .ok (true, fl)) : ¬ g.IsFilled r := by
  rintro ⟨e', fl', h'⟩
  have := congrArg Prod.fst (eq_of_meaning_eq_ok h h')
  cases this

theorem isFilled_iff {i : NodeId} {n : Node} (hn : g.node? i = some n) :
    g.IsFilled (some i) ↔ ∃ e dr, (n.isEmpty g i).eval (g.meaning e) {} = .ok (false, dr) := by
  constructor
  · rintro ⟨e, fl, h⟩
    obtain ⟨e, dr, -, h⟩ := exists_eval_of_meaning hn h
    exact ⟨e, dr, h⟩
  · rintro ⟨e, dr, h⟩
    refine ⟨e + 1, dr.subtraction, ?_⟩
    rw [meaning_node hn, answerOf]
    exact congrArg (· >>= fun x : Bool × Draft => Except.ok (x.1, x.2.subtraction)) h

/-- Answers of a rule do not depend on the height. -/
theorem eq_of_eval_meaning_eq_ok {α : Type} {p : Rule α} {dr : Draft} {e e' : Nat} {x x' : α × Draft}
    (h : p.eval (g.meaning e) dr = .ok x) (h' : p.eval (g.meaning e') dr = .ok x') : x = x' := by
  have hagree : ∀ {e e'}, e ≤ e' → (g.meaning e).Agrees (· = .exhausted) (g.meaning e') :=
    fun he q r hq => Settled.meaning_eq_of_le (hq _ rfl) he
  have hle : ∀ {e e' x x'}, e ≤ e' → p.eval (g.meaning e) dr = .ok x →
      p.eval (g.meaning e') dr = .ok x' → x = x' := by
    intro e e' x x' he h h'
    rw [eval_eq_of_agrees (hagree he) p dr (fun f _ hf => by rw [h] at hf; cases hf), h] at h'
    cases h'
    rfl
  rcases Nat.le_total e e' with he | he
  · exact hle he h h'
  · exact (hle he h' h).symm

section

variable {i : NodeId} {e : Nat}

variable {r : Ref} {dr : Draft}

theorem isFilled_of_ask {dr' : Draft}
    (h : (Rule.ask .empty r).eval (g.meaning e) dr = .ok (false, dr')) : g.IsFilled r := by
  obtain ⟨⟨b, fl⟩, hb, hx⟩ := bind_eq_ok.1 h
  cases hx
  exact ⟨e, fl, hb⟩

/-- The only branch of an alternation, or what is grouped, is not empty if the node is not. -/
theorem IsFilled.child {n : Node} (hn : g.node? i = some n) (hr : n = .alternation [r] ∨ n = .group r)
    (h : g.IsFilled (some i)) : g.IsFilled r := by
  obtain ⟨e, dr, h⟩ := (isFilled_iff hn).1 h
  rcases hr with rfl | rfl <;> exact isFilled_of_ask h

/-- What a quantifier that is not empty applies to is not empty. -/
theorem IsFilled.quantified {b : Bounds} {u : Ref} {fl : Bool}
    (hn : g.node? i = some (.quantified b r)) (h : g.IsFilled (some i))
    (hu : g.meaning e .core r = .ok (u, fl)) : g.IsFilled u := by
  obtain ⟨e', dr, h⟩ := (isFilled_iff hn).1 h
  rw [Node.isEmpty] at h
  split at h
  · cases h
  split at h
  · cases h
  · rw [eval_bind] at h
    obtain ⟨⟨u', dr'⟩, hu', h⟩ := bind_eq_ok.1 h
    obtain ⟨⟨v, fl'⟩, hv, hx⟩ := bind_eq_ok.1 hu'
    cases hx
    obtain rfl : v = u := congrArg Prod.fst (eq_of_meaning_eq_ok hv hu)
    exact isFilled_of_ask h

/-- A sequence that is not empty has a child that is not. -/
theorem IsFilled.ne_nil {cs rs : List Ref} (hn : g.node? i = some (.concat cs))
    (h : g.IsFilled (some i)) (hrs : (nonEmpty cs).eval (g.meaning e) {} = .ok (rs, dr)) : rs ≠ [] := by
  obtain ⟨e', dr', h⟩ := (isFilled_iff hn).1 h
  rw [Node.isEmpty, eval_bind] at h
  obtain ⟨⟨rs', dr''⟩, hrs', h⟩ := bind_eq_ok.1 h
  obtain rfl : rs = rs' := congrArg Prod.fst (eq_of_eval_meaning_eq_ok hrs hrs')
  rintro rfl
  cases h

end

end Graph

/-! ### Oracles that answer neatly -/

/-- The answers are sound, texts are complete, what is not empty is written as something, and an
answer about emptiness is right. -/
structure Oracle.IsNeat (g : Graph) (A : Oracle) : Prop where
  sound : ∀ q r x, A q r = .ok x → q.Sound g r x.1
  complete : ∀ {r x}, A .text r = .ok x → x.1.IsComplete
  filled : ∀ {r x}, A .text r = .ok x → g.IsFilled r → x.1 ≠ []
  core : ∀ {r x}, A .core r = .ok x → g.IsFilled r → g.IsFilled x.1
  nonEmpty : ∀ {r x}, A .empty r = .ok x → (x.1 = false ↔ g.IsFilled r)

/-- The draft is complete, and it is not blank if it was not blank before or if `F` holds. -/
def Draft.Grows (dr : Draft) (F : Prop) (dr' : Draft) : Prop :=
  dr'.text.IsComplete ∧ (dr.text ≠ [] ∨ F → dr'.text ≠ [])

section

variable {g : Graph} {A : Oracle} {dr : Draft}

/-- After a glyph that is no backslash a draft is complete and not blank. -/
theorem Draft.grows_write (dr₀ dr : Draft) (F : Prop) {t : Text} (ht : t ≠ [])
    (hslash : .char '\\' ∉ t) : dr₀.Grows F (dr.write t) :=
  ⟨isComplete_append_of_not_mem _ ht hslash, fun _ => append_ne_nil_of_right_ne_nil _ ht⟩

/-- The children that are left are not empty, and nothing is written to find them. -/
theorem nonEmpty_neat (hA : A.IsNeat g) {cs : List Ref} (hdr : dr.text.IsComplete) :
    (nonEmpty cs).Neat A (fun rs dr' => (∀ r ∈ rs, g.IsFilled r) ∧ dr'.text = dr.text) dr := by
  induction cs generalizing dr with
  | nil => exact ⟨fun r hr => (nomatch hr), rfl⟩
  | cons c cs ih =>
    refine .ask_bind (by decide) hdr fun ⟨b, _⟩ dr₁ hb hdr₁ => ?_
    refine (ih (hdr₁ ▸ hdr)).bind fun rs dr₂ hrs => ⟨?_, hrs.2.trans hdr₁⟩
    cases b with
    | true => exact hrs.1
    | false => exact forall_mem_cons.2 ⟨(hA.nonEmpty hb).1 rfl, hrs.1⟩

variable {r e : Ref} {opening : Text} {rs : List Ref} {i : NodeId} {contents : Rule Unit}
  {c : Condition}

theorem write_neat (hA : A.IsNeat g) (hdr : dr.text.IsComplete) :
    (Rule.write r).Neat A (fun _ => dr.Grows (g.IsFilled r)) dr := by
  refine ⟨hdr, fun x hx => ⟨isComplete_append hdr (hA.complete hx), ?_⟩⟩
  rintro (h | h)
  · exact append_ne_nil_of_left_ne_nil h _
  · exact append_ne_nil_of_right_ne_nil _ (hA.filled hx h)

theorem parenthesized_neat {p : Rule Unit} {F : Prop}
    (h : p.Neat A (fun _ _ => True) (dr.write opening)) (dr₀ : Draft) :
    (do Rule.emit opening; p; Rule.emit ")" : Rule Unit).Neat A (fun _ => dr₀.Grows F) dr :=
  h.bind fun _ dr' _ => dr₀.grows_write dr' F (by decide) (by decide)

section

variable (hA : A.IsNeat g) (hdr : dr.text.IsComplete)

include hA hdr

/-- A group is written unless the pattern is single. -/
theorem writeSingle_neat : (writeSingle r).Neat A (fun _ => dr.Grows (g.IsFilled r)) dr := by
  refine .ask_bind (by decide) hdr fun ⟨single, _⟩ dr₁ _ htext => ?_
  cases single with
  | true =>
    refine (write_neat hA (htext ▸ hdr)).mono fun _ dr' h => ?_
    rw [Draft.Grows, htext] at h
    exact h
  | false =>
    refine parenthesized_neat ?_ dr
    refine (write_neat hA ?_).mono fun _ _ _ => trivial
    exact isComplete_append_of_not_mem _ (by decide) (by decide)

/-- What a branch comes down to is not empty if the branch is not. -/
theorem writeBranch_neat : (writeBranch g r).Neat A (fun _ => dr.Grows (g.IsFilled r)) dr := by
  refine .ask_bind (by decide) hdr fun x dr₁ hx htext => ?_
  split
  · refine parenthesized_neat ?_ dr
    refine (write_neat hA ?_).mono fun _ _ _ => trivial
    exact isComplete_append_of_not_mem _ (by decide) (by decide)
  · refine (write_neat hA (htext ▸ hdr)).mono fun _ dr' h => ?_
    rw [Draft.Grows, htext] at h
    exact ⟨h.1, fun hr => h.2 (hr.imp id (hA.core hx))⟩

/-- **The rest of a sequence is written neatly** behind a child that is written as something. -/
theorem writeRest_neat (hne : dr.text ≠ []) :
    (writeRest g rs).Neat A (fun _ dr' => dr'.text.IsComplete ∧ dr'.text ≠ []) dr := by
  induction rs generalizing dr with
  | nil => exact ⟨hdr, hne⟩
  | cons r rs ih =>
    refine (writeBranch_neat hA hdr).bind fun _ dr₁ h₁ => ?_
    refine ⟨length_pos_iff.2 hne, ih (Session.isComplete_separate h₁.1) ?_⟩
    exact Session.separate_ne_nil (h₁.2 (.inl hne))

theorem writeBranches_neat : (writeBranches rs).Neat A (fun _ => dr.Grows (rs ≠ [])) dr := by
  induction rs generalizing dr with
  | nil => exact ⟨hdr, fun h => h.elim id fun h => absurd rfl h⟩
  | cons r rs ih =>
    have hbar : (dr.write "|").text.IsComplete := isComplete_append_of_not_mem _ (by decide) (by decide)
    have hne : (dr.write "|").text ≠ [] := append_ne_nil_of_right_ne_nil _ (by decide)
    show (Rule.write r >>= fun _ => writeBranches rs).Neat A _ (dr.write "|")
    refine (write_neat hA hbar).bind fun _ dr₁ h₁ => ?_
    exact (ih h₁.1).mono fun _ dr₂ h₂ => ⟨h₂.1, fun _ => h₂.2 (.inl (h₁.2 (.inl hne)))⟩

/-- What is written only if node `i` is not empty. -/
theorem unlessEmpty_neat
    (h : ∀ dr' : Draft, dr'.text = dr.text → g.IsFilled (some i) →
      contents.Neat A (fun _ => dr.Grows (g.IsFilled (some i))) dr') :
    (do if ← Rule.ask .empty (some i) then return () else contents : Rule Unit).Neat A
      (fun _ => dr.Grows (g.IsFilled (some i))) dr := by
  refine .ask_bind (by decide) hdr fun ⟨empty, _⟩ dr₁ hx htext => ?_
  have hfilled := hA.nonEmpty hx
  cases empty with
  | true =>
    refine ⟨htext ▸ hdr, ?_⟩
    rintro (hne | hi)
    · rw [htext]
      exact hne
    · cases hfilled.2 hi
  | false => exact h _ htext (hfilled.1 rfl)

/-- A group ends in a parenthesis, whatever it contains. -/
theorem writeGroup_neat (h : ∀ dr' : Draft, dr'.text = dr.text →
      contents.Neat A (fun _ _ => True) (dr'.write opening)) :
    (writeGroup i opening contents).Neat A (fun _ => dr.Grows (g.IsFilled (some i))) dr :=
  unlessEmpty_neat hA hdr fun dr' htext _ => parenthesized_neat (h dr' htext) dr

theorem writeCondition_neat : (writeCondition i c e).Neat A (fun _ _ => True) dr := by
  unfold writeCondition
  split
  · split <;> trivial
  · split <;> trivial
  · refine .ask_bind (by decide) hdr fun ⟨empty, _⟩ dr₁ _ htext => ?_
    cases empty with
    | true => trivial
    | false => exact (write_neat hA (htext ▸ hdr)).mono fun _ _ _ => trivial
  · trivial

theorem writeConditional_neat {yes no : Ref} : (writeConditional g i c e yes no).Neat A (fun _ _ => True) dr := by
  refine (writeCondition_neat hA hdr).bind fun _ dr₁ _ => ?_
  have hclose : (dr₁.write ")").text.IsComplete := isComplete_append_of_not_mem _ (by decide) (by decide)
  refine Neat.bind (Q := fun _ dr' => dr'.text.IsComplete) ?_ ?_
  · exact hclose
  intro _ dr₂ h₂
  refine (writeBranch_neat hA h₂).bind fun _ dr₃ h₃ => .ask_bind (by decide) h₃.1 fun ⟨empty, _⟩ _ _ _ => ?_
  cases empty with
  | true => trivial
  | false =>
    refine (writeBranch_neat hA ?_).mono fun _ _ _ => trivial
    exact isComplete_append_of_not_mem _ (by decide) (by decide)

end

end

namespace Graph

variable {g : Graph}

/-- A member of a set is a character or a class. -/
theorem exists_leaf_of_memberForm? {r : Ref} {t : Text} (h : g.memberForm? r = some t) : ∃ i, r = some i ∧
    ((∃ c, g.node? i = some (.leaf (.character c)) ∧ c.form true = t) ∨
      ∃ c, g.node? i = some (.leaf (.charClass c)) ∧ c.form = t) := by
  unfold memberForm? at h
  split at h
  · next c hr =>
    obtain ⟨i, rfl, hn⟩ := bind_eq_some_iff.1 hr
    exact ⟨i, rfl, .inl ⟨c, hn, some.inj h⟩⟩
  · next c hr =>
    obtain ⟨i, rfl, hn⟩ := bind_eq_some_iff.1 hr
    exact ⟨i, rfl, .inr ⟨c, hn, some.inj h⟩⟩
  · cases h

theorem isFilled_of_memberForm? {r : Ref} (h : g.memberForm? r ≠ none) : g.IsFilled r := by
  obtain ⟨t, h⟩ := ne_none_iff_exists'.1 h
  obtain ⟨i, rfl, ⟨c, hn, -⟩ | ⟨c, hn, -⟩⟩ := exists_leaf_of_memberForm? h
  · exact (isFilled_iff hn).2 ⟨0, {}, rfl⟩
  · exact (isFilled_iff hn).2 ⟨0, {}, rfl⟩

theorem memberForm?_of_character? {r : Ref} (h : g.character? r ≠ none) : g.memberForm? r ≠ none := by
  obtain ⟨c, hc⟩ := ne_none_iff_exists'.1 h
  unfold memberForm?
  rw [deref?_of_character? hc]
  exact some_ne_none _

end Graph

variable {g : Graph} {s : CharacterSet Ref} {ranges : List (Range Character)} {r : Ref} {i : NodeId}
  {dr : Draft}

/-- The endpoints of ranges that are resolved are characters. -/
theorem CharacterSet.character?_of_resolveRanges {rs : List (Range Ref)} (h : resolveRanges g rs = .ok ranges) :
    Forall₂ (fun r c => g.character? r.first = some c.first ∧ g.character? r.last = some c.last) rs ranges := by
  refine (mapM_eq_ok_iff.1 h).imp fun r c hc => ?_
  split at hc
  · cases hc
  · next d hd =>
    split at hc
    · cases hc
    · cases hc
      obtain ⟨a, ha, hd⟩ := bind_eq_some_iff.1 hd
      obtain ⟨b, hb, hd⟩ := bind_eq_some_iff.1 hd
      cases hd
      exact ⟨ha, hb⟩

/-- **What is written in place of a set is a character or a class** that the set refers to. -/
theorem CharacterSet.memberForm?_of_only? (hs : ∀ m ∈ s.members, g.memberForm? m ≠ none)
    (hranges : resolveRanges g s.ranges = .ok ranges) (h : s.only? ranges = some r) :
    r ∈ s.refs ∧ g.memberForm? r ≠ none := by
  refine ⟨mem_refs_of_only? h, ?_⟩
  unfold only? at h
  split at h
  · cases h
  split at h
  · next m _ hm =>
    cases h
    exact hs r (hm ▸ mem_singleton.2 rfl)
  · next hx _ =>
    split at h
    · cases h
      refine Graph.memberForm?_of_character? ?_
      rw [hx] at hranges
      rw [(forall₂_cons.1 (character?_of_resolveRanges hranges)).1.1]
      exact some_ne_none _
    · cases h
  · cases h

theorem Graph.IsTidy.memberForm?_of_only? (hg : g.IsTidy) (hn : g.node? i = some (.set s))
    (hranges : CharacterSet.resolveRanges g s.ranges = .ok ranges) (h : s.only? ranges = some r) :
    r ∈ s.refs ∧ g.memberForm? r ≠ none :=
  CharacterSet.memberForm?_of_only? (fun _ hm => hg.member hn (mem_append_left _ hm)) hranges h

theorem Bounds.not_mem_count (b : Bounds) : .char '\\' ∉ b.count := by
  have hint : ∀ n, .char '\\' ∉ Text.ofInt n := not_mem_ofInt rfl (by decide)
  unfold count
  split_ifs
  · decide
  · decide
  · decide
  all_goals
    simp only [mem_append, hint, or_false]
    decide

theorem Bounds.count_ne_nil (b : Bounds) : b.count ≠ [] := by
  unfold count
  split_ifs <;> exact cons_ne_nil _ _

theorem Bounds.not_mem_suffix (b : Bounds) : .char '\\' ∉ b.suffix := by
  unfold suffix
  split
  · exact b.not_mem_count
  · intro h
    rcases mem_append.1 h with h | h
    · exact b.not_mem_count h
    · exact absurd h (by decide)

theorem Bounds.suffix_ne_nil (b : Bounds) : b.suffix ≠ [] := by
  unfold suffix
  split
  · exact b.count_ne_nil
  · exact append_ne_nil_of_left_ne_nil b.count_ne_nil _

/-- The text between brackets ends in one. -/
theorem CharacterSet.exists_of_bracketed {subtracted : List (Range Character)} {t : Text}
    (h : s.bracketed g ranges subtracted = .ok t) : ∃ u, t = u ++ "]" := by
  unfold bracketed at h
  obtain ⟨base, -, h⟩ := bind_eq_ok.1 h
  cases hsub : s.hasSubtraction with
  | true =>
    simp only [hsub, if_true] at h
    obtain ⟨minus, -, h⟩ := bind_eq_ok.1 h
    cases h
    exact ⟨_, (append_assoc _ [Glyph.char ']'] [Glyph.char ']']).symm⟩
  | false =>
    simp only [hsub, Bool.false_eq_true, if_false] at h
    cases h
    exact ⟨_, rfl⟩

/-- A set is written as one of its elements or ends in a bracket. -/
theorem writeSet_neat (hg : g.IsTidy) {A : Oracle} (hA : A.IsNeat g) (hn : g.node? i = some (.set s))
    (hdr : dr.text.IsComplete) : (writeSet g i s).Neat A (fun _ => dr.Grows (g.IsFilled (some i))) dr := by
  unfold writeSet
  by_cases hbase : s.hasBase
  · simp only [hbase, Bool.not_true, Bool.false_eq_true, if_false]
    refine (Neat.ofResult (Q := fun ranges dr' =>
      CharacterSet.resolveRanges g s.ranges = .ok ranges ∧ dr = dr') fun _ h => ⟨h, rfl⟩).bind ?_
    rintro ranges _ ⟨hranges, rfl⟩
    refine (Neat.ofResult (Q := fun _ dr' => dr = dr') fun _ _ => rfl).bind ?_
    rintro subtracted _ rfl
    split
    · next r hr =>
      refine (write_neat hA hdr).mono fun _ dr' h => ⟨h.1, fun _ => h.2 (.inr ?_)⟩
      exact Graph.isFilled_of_memberForm? (hg.memberForm?_of_only? hn hranges hr).2
    · refine (Neat.ofResult (Q := fun t dr' => (∃ u : Text, t = u ++ "]") ∧ dr = dr')
        fun _ h => ⟨CharacterSet.exists_of_bracketed h, rfl⟩).bind ?_
      rintro _ _ ⟨⟨u, rfl⟩, rfl⟩
      have hend : ∀ dr' : Draft, dr.Grows (g.IsFilled (some i)) (dr'.write (u ++ "]")) := by
        intro dr'
        have h := dr.grows_write (dr'.write u) (g.IsFilled (some i)) (t := "]") (by decide) (by decide)
        rw [Draft.Grows, Draft.write, Draft.write, append_assoc] at h
        exact h
      split
      · exact hend _
      · exact hend dr
  · have hbase : s.hasBase = false := Bool.eq_false_iff.2 hbase
    simp only [hbase, Bool.not_false, if_true]
    split
    · trivial
    · next hsub =>
      refine ⟨hdr, ?_⟩
      rintro (hne | hi)
      · exact hne
      · obtain ⟨e, dr', h⟩ := (Graph.isFilled_iff hn).1 hi
        rw [Node.isEmpty, hbase, Bool.eq_false_iff.2 hsub] at h
        cases h

/-- A quantifier is written behind what is not empty, or for a single time as that. -/
theorem writeQuantified_neat {e : Nat} (hA : (g.meaning e).IsNeat g) {b : Bounds} {c : Ref}
    (hn : g.node? i = some (.quantified b c)) (hdr : dr.text.IsComplete) :
    (writeQuantified g i b c).Neat (g.meaning e) (fun _ => dr.Grows (g.IsFilled (some i))) dr := by
  refine unlessEmpty_neat hA hdr fun dr₁ htext hi => ?_
  refine .ask_bind (by decide) (htext ▸ hdr) fun y dr' hy htext' => ?_
  have hu : g.IsFilled y.1 := hi.quantified hn hy
  rw [htext] at htext'
  split
  · trivial
  · trivial
  · split
    · exact (write_neat hA (htext' ▸ hdr)).mono fun _ _ h => ⟨h.1, fun _ => h.2 (.inr hu)⟩
    · refine (writeSingle_neat hA (htext' ▸ hdr)).bind fun _ dr₂ _ => ?_
      exact dr.grows_write dr₂ _ b.suffix_ne_nil b.not_mem_suffix

/-- What opens a group ends in a glyph that is no backslash. -/
theorem Enclosure.exists_opening (how : Enclosure) : ∃ u t : Text, how.opening = u ++ t ∧ t ≠ [] ∧ .char '\\' ∉ t := by
  cases how with
  | capture | atomic => exact ⟨[], _, rfl, by decide, by decide⟩
  | named | balancing => exact ⟨_, ">", rfl, by decide, by decide⟩
  | look kind => cases kind <;> exact ⟨[], _, rfl, by decide, by decide⟩

theorem isComplete_optionsOpening (a : Text) (g : Graph) (on off : Options) (c : Ref) :
    (a ++ optionsOpening g on off c).IsComplete := by
  have hflags : .char '\\' ∉ optionFlags on off := by
    unfold optionFlags
    split
    · exact not_mem_letters on
    · simp only [mem_append, not_mem_letters, or_false, false_or]
      decide
  refine isComplete_append_of_not_mem a ?_ ?_
  · unfold optionsOpening
    split <;> exact cons_ne_nil _ _
  · unfold optionsOpening
    split
    · simp only [mem_append, hflags, or_false]
      decide
    · simp only [mem_append, hflags, or_false]
      decide

/-! ### Every node of a tidy graph is neat -/

namespace Node

variable {g : Graph} {e : Nat} {i : NodeId} {n : Node}

/-- **Every node of a tidy graph writes neatly,** and as something if it is not empty. -/
theorem write_neat (hg : g.IsTidy) (hA : (g.meaning e).IsNeat g) (hn : g.node? i = some n) :
    (n.write g i).Neat (g.meaning e) (fun _ => ({} : Draft).Grows (g.IsFilled (some i))) {} := by
  have hnil : ({} : Draft).text.IsComplete := isComplete_nil
  cases n with
  | leaf l =>
    refine (Neat.ofResult (Q := fun t dr => l.form = .ok t ∧ {} = dr) fun _ h => ⟨h, rfl⟩).bind ?_
    rintro t _ ⟨ht, rfl⟩
    refine ⟨l.isComplete_form ht fun u hu => hg.raw (hu ▸ hn), ?_⟩
    rintro (hne | hi)
    · exact absurd rfl hne
    · refine l.form_ne_nil ht (fun c code hc => hg.kind (hc ▸ hn)) ?_
      obtain ⟨e', dr, h⟩ := (Graph.isFilled_iff hn).1 hi
      exact congrArg Prod.fst (Except.ok.inj h)
  | set => exact writeSet_neat hg hA hn hnil
  | concat =>
    refine (nonEmpty_neat hA hnil).bind_eval (fun _ _ _ => id) ?_
    rintro rs dr ⟨hfilled, hdr⟩ heval
    have hnil' : dr.text.IsComplete := hdr ▸ hnil
    match rs with
    | [] =>
      refine ⟨hnil', ?_⟩
      rintro (hne | hi)
      · exact absurd rfl hne
      · exact absurd rfl (hi.ne_nil hn heval)
    | [r] =>
      refine (RegexBuilder.write_neat hA hnil').mono fun _ dr' h => ⟨h.1, fun _ => h.2 (.inr ?_)⟩
      exact hfilled r (mem_singleton.2 rfl)
    | r :: r' :: rest =>
      refine (writeBranch_neat hA hnil').bind fun _ dr₁ h₁ => ?_
      have hne : dr₁.text ≠ [] := h₁.2 (.inr (hfilled r mem_cons_self))
      exact (writeRest_neat hA h₁.1 hne).mono fun _ dr₂ h₂ => ⟨h₂.1, fun _ => h₂.2⟩
  | alternation cs =>
    match cs with
    | [] =>
      refine ⟨hnil, ?_⟩
      rintro (hne | hi)
      · exact absurd rfl hne
      · obtain ⟨e', dr, h⟩ := (Graph.isFilled_iff hn).1 hi
        cases h
    | [r] =>
      refine (RegexBuilder.write_neat hA hnil).bind fun _ dr₁ h₁ => ?_
      exact ⟨h₁.1, fun hi => h₁.2 (hi.imp id (·.child hn (.inl rfl)))⟩
    | r :: r' :: rest =>
      refine (RegexBuilder.write_neat hA hnil).bind fun _ dr₁ h₁ => ?_
      refine (writeBranches_neat hA h₁.1).mono fun _ dr₂ h₂ => ⟨h₂.1, fun _ => h₂.2 (.inr ?_)⟩
      exact cons_ne_nil _ _
  | quantified => exact writeQuantified_neat hA hn hnil
  | group =>
    refine (RegexBuilder.write_neat hA hnil).mono fun _ dr' h => ⟨h.1, fun hi => h.2 ?_⟩
    exact hi.imp id (·.child hn (.inr rfl))
  | enclosed how c =>
    refine writeGroup_neat hA hnil fun dr' _ => ?_
    refine (RegexBuilder.write_neat hA ?_).mono fun _ _ _ => trivial
    obtain ⟨u, t, hopening, hne, hslash⟩ := how.exists_opening
    show (dr'.text ++ how.opening).IsComplete
    rw [hopening, ← append_assoc]
    exact isComplete_append_of_not_mem _ hne hslash
  | conditional =>
    refine writeGroup_neat hA hnil fun dr' _ => writeConditional_neat hA ?_
    exact isComplete_append_of_not_mem _ (by decide) (by decide)
  | modified on off c =>
    refine writeGroup_neat hA hnil fun dr' _ => ?_
    show (if on.inter off = .empty then Rule.write c else Rule.object i _).Neat _ _ _
    split
    · refine (RegexBuilder.write_neat hA ?_).mono fun _ _ _ => trivial
      exact isComplete_optionsOpening _ g on off c
    · trivial

theorem core_neat (hA : (g.meaning e).IsNeat g) (hn : g.node? i = some n) :
    (n.core g i).Neat (g.meaning e) (fun u _ => g.IsFilled (some i) → g.IsFilled u) {} := by
  have hask : ∀ {r} {dr : Draft}, dr.text.IsComplete → (g.IsFilled (some i) → g.IsFilled r) →
      (Rule.ask .core r).Neat (g.meaning e) (fun u _ => g.IsFilled (some i) → g.IsFilled u) dr :=
    fun hdr hr => .ask hdr fun x hx hi => hA.core hx (hr hi)
  have hself : ∀ dr, (pure (some i) : Rule Ref).Neat (g.meaning e)
      (fun u _ => g.IsFilled (some i) → g.IsFilled u) dr := fun dr => id
  have hnil : ({} : Draft).text.IsComplete := isComplete_nil
  unfold core
  split
  · refine (nonEmpty_neat hA hnil).bind ?_
    rintro rs dr ⟨hfilled, hdr⟩
    match rs with
    | [] | _ :: _ :: _ => exact hself dr
    | [r] => exact hask (hdr ▸ hnil) fun _ => hfilled r (mem_singleton.2 rfl)
  · exact hask hnil (·.child hn (.inl rfl))
  · split
    · exact .ask hnil fun x hx hi => hi.quantified hn hx
    · exact hself _
  · split
    · exact hself _
    · exact hask hnil (·.child hn (.inr rfl))
  all_goals exact hself _

end Node

namespace Graph

variable {g : Graph}

theorem not_isFilled_of_deref? {r : Ref} (h : g.deref? r = none) : ¬ g.IsFilled r :=
  not_isFilled_of_empty (meaning_absent h 0)

/-- The text of a node of a tidy graph is its draft at the end. -/
theorem text_neat (hg : g.IsTidy) {e : Nat} (hA : (g.meaning e).IsNeat g) {i : NodeId} {n : Node}
    (hn : g.node? i = some n) : (n.rule g i .text).Neat (g.meaning e) (fun t dr => dr.text = t ∧
      t.IsComplete ∧ (g.IsFilled (some i) → t ≠ [])) {} :=
  (Node.write_neat hg hA hn).bind fun _ _ h => ⟨rfl, h.1, fun hi => h.2 (.inr hi)⟩

/-- **The questions of a tidy graph mean something neat.** -/
theorem meaning_isNeat (hg : g.IsTidy) : ∀ e, (g.meaning e).IsNeat g
  | 0 => ⟨fun _ _ _ h => (nomatch h), fun h => (nomatch h), fun h => (nomatch h),
      fun h => (nomatch h), fun h => (nomatch h)⟩
  | e + 1 => by
    have ih := meaning_isNeat hg e
    have htext : ∀ {r x}, g.meaning (e + 1) .text r = .ok x →
        x.1.IsComplete ∧ (g.IsFilled r → x.1 ≠ []) := by
      intro r x h
      rcases g.absent_or_node r with hr | ⟨i, n, rfl, hn⟩
      · rw [meaning_absent hr] at h
        cases h
        exact ⟨isComplete_nil, fun hi => absurd hi (not_isFilled_of_deref? hr)⟩
      · obtain ⟨_, dr, ⟨⟩, ht⟩ := exists_eval_of_meaning hn h
        exact ((text_neat hg ih hn).of_eval_eq_ok ht).2
    refine ⟨sound_of_meaning_eq_ok _, fun h => (htext h).1, fun h => (htext h).2, ?_, ?_⟩
    · intro r x h hfilled
      rcases g.absent_or_node r with hr | ⟨i, n, rfl, hn⟩
      · exact absurd hfilled (not_isFilled_of_deref? hr)
      · obtain ⟨_, dr, ⟨⟩, hu⟩ := exists_eval_of_meaning hn h
        exact (Node.core_neat ih hn).of_eval_eq_ok hu hfilled
    · rintro r ⟨b, fl⟩ h
      cases b with
      | false => exact ⟨fun _ => ⟨e + 1, fl, h⟩, fun _ => rfl⟩
      | true => exact ⟨fun hb => (nomatch hb), fun hr => absurd hr (not_isFilled_of_empty h)⟩

/-- **What a rule shows is its own draft.** -/
theorem rule_neat (hg : g.IsTidy) (e : Nat) {i : NodeId} {n : Node} (hn : g.node? i = some n) (q : Question) :
    (n.rule g i q).Neat (g.meaning e) (fun a dr => dr.text = q.shown a) {} := by
  have hA := meaning_isNeat hg e
  by_cases hq : q = .text
  · subst hq
    exact (text_neat hg hA hn).mono fun _ _ h => h.1
  · refine ((Node.rule_follows hn q).neat hA.sound hq isComplete_nil).mono fun a dr h => ?_
    cases q with
    | text => exact absurd rfl hq
    | core | empty | single => exact h.2

end Graph
end RegexBuilder
