/-
# Neither kept answers nor shared nodes are seen

In a tidy graph, cyclic or not, every question has the same outcome whether answers are kept or not, because
`Graph.told` is what both come to. What was copied is related to its copy by a mirror (`Graph.isMirror_copiedAs`), so
both mean the same, and where a copy succeeds there is no cycle, so both are told their meaning.
-/

import RegexBuilder.Proofs.Memory
import RegexBuilder.Proofs.Mirror

namespace RegexBuilder

/-! ### Outcomes -/

/-- The kinds of failures. -/
inductive Failure.Kind where
  | invalid | recursion | broken | exhausted
deriving DecidableEq, Repr

/-- The kind of the failure. -/
def Failure.kind : Failure → Failure.Kind
  | invalid _ _ => .invalid
  | recursion _ _ => .recursion
  | broken _ => .broken
  | exhausted => .exhausted

theorem Failure.Alike.kind_eq {R : Ref → Ref → Prop} {f f' : Failure} (h : f.Alike R f') :
    f.kind = f'.kind := by cases h <;> rfl

/-- The same result in both graphs, or failures of one kind with one message. -/
inductive SameOutcome {α : Type} (g g' : Graph) : Except Failure α → Except Failure α → Prop where
  | ok (a : α) : SameOutcome g g' (.ok a) (.ok a)
  | error {f f' : Failure} (hkind : f.kind = f'.kind) (hmessage : f.message g = f'.message g') :
    SameOutcome g g' (.error f) (.error f')

/-! ### Sessions -/

/-- What a session renders is what the text is told. -/
theorem Matches.rendering_eq {g : Graph} {a : Ask Text} {A : Oracle} {r : Ref}
    (h : Matches g {} (a {}) (A.draft .text r)) : a.rendering = A .text r >>= fun x => .ok ⟨x.1, x.2⟩ := by
  unfold Oracle.draft at h
  show (a {} >>= fun x => Except.ok (⟨x.2.out, x.2.subtraction⟩ : Rendering)) = _
  cases hx : A .text r with
  | error f =>
    rw [hx] at h
    have h : a {} = .error f := h
    rw [h]
    rfl
  | ok x =>
    rw [hx] at h
    obtain ⟨s, hs, hout, hsub, -⟩ := h
    rw [hs]
    show Except.ok (⟨s.out, s.subtraction⟩ : Rendering) = .ok ⟨x.1, x.2⟩
    rw [hout, hsub]
    rfl

/-- What a session answers is what the question is told. -/
theorem Matches.answer_eq {g : Graph} {q : Question} {a : Ask q.Answer} {A : Oracle} {r : Ref}
    (h : Matches g {} (a {}) (A.draft q r)) : a.answer = A q r >>= fun x => .ok x.1 := by
  unfold Oracle.draft at h
  show (a {} >>= fun x => Except.ok x.1) = _
  cases hx : A q r with
  | error f =>
    rw [hx] at h
    have h : a {} = .error f := h
    rw [h]
    rfl
  | ok =>
    rw [hx] at h
    obtain ⟨s, hs, -⟩ := h
    rw [hs]
    rfl

/-- Nodes that are alike have the same label. -/
theorem Node.Alike.label_eq {R : Ref → Ref → Prop} {n n' : Node} (h : n.Alike R n') : n.label = n'.label := by
  cases h with
  | enclosed how h =>
    cases how with
    | look kind => cases kind <;> rfl
    | capture | named | balancing | atomic => rfl
  | leaf | set | concat | alternation | quantified | group | conditional | modified => rfl

namespace Graph

/-- What the questions are told from the outside. -/
def toldOf (g : Graph) : Oracle := g.told (4 * g.size + 1) Open.none

variable {g : Graph}

theorem questions_matches (hg : g.IsTidy) (keep : Bool) (q : Question) (r : Ref) :
    Matches g {} (g.questions keep q r {}) (g.toldOf.draft q r) :=
  asking_matches hg keep q r {} (g.unopened_lt_depth _) (g.pending_none q r)
    (Session.isValid_empty g) Text.isComplete_nil

theorem render_eq_told (hg : g.IsTidy) (r : Ref) : g.render r = g.toldOf .text r >>= fun x => .ok ⟨x.1, x.2⟩ :=
  (questions_matches hg true .text r).rendering_eq

theorem render_of_meaning (hg : g.IsTidy) {h : Nat} {r : Ref} {t : Text} {fl : Bool}
    (hr : g.meaning h .text r = .ok (t, fl)) : g.render r = .ok ⟨t, fl⟩ := by
  have htold : g.toldOf .text r = g.meaning h .text r :=
    told_eq_of_settled h (g.unopened_lt_depth _) (g.pending_none _ _) (settled_of_eq_ok hr)
  rw [render_eq_told hg, htold, hr]
  rfl

variable {r r' : Ref} {g' s : Graph} {n n' : Node} {R : Ref → Ref → Prop}

/-- Where no cycle is reached, what is told is the meaning. -/
theorem meaning_eq_toldOf (hg : g.IsTidy) (hr : ¬ g.HasCycleFrom r) (q : Question) :
    g.meaning (4 * g.size + 1) q r = g.toldOf q r ∧ g.toldOf q r ≠ .error .exhausted := by
  have hmatch := questions_matches hg true q r
  have hstop : ∀ f, f.IsStop → g.toldOf q r ≠ .error f := by
    intro f hf htold
    rw [Oracle.draft, htold] at hmatch
    have hfail : g.questions true q r {} = .error f := hmatch
    cases f with
    | recursion => exact hr (questions_failsAs hfail).2
    | exhausted => exact asking_ne_exhausted (g.unopened_lt_depth _) q r {} hfail
    | invalid | broken => exact hf
  exact ⟨told_eq_meaning _ _ q r hstop, hstop _ trivial⟩

/-! ### Copies -/

/-- In a graph that extends to `g'`, `r'` was made as a copy of `r`, or of `r` as an endpoint. -/
def CopiedAs (g g' : Graph) (r r' : Ref) : Prop :=
  ∃ s s', s'.Extends g' ∧
    ((∃ d o, g.copying d o r s = .ok (r', s')) ∨ copyEndpoint g r s = .ok (r', s'))

theorem copiedAs_of_made {s' : Graph} {d : Nat} {o : List NodeId} (hs : s'.Extends g')
    (h : Made Extends (copyEndpoint g) (g.copying d o) s s' r r') : g.CopiedAs g' r r' := by
  obtain ⟨s₁, s₂, -, hcopy, hs₂⟩ := h
  exact ⟨s₁, s₂, hs₂.trans hs, hcopy.imp (fun hcopy => ⟨d, o, hcopy⟩) id⟩

/-- **What was copied is mirrored by its copy.** -/
theorem isMirror_copiedAs (g g' : Graph) : g.IsMirror g' (g.CopiedAs g') := by
  refine ⟨⟨g', g', .refl g', .inl ⟨1, [], rfl⟩⟩, ?_⟩
  rintro r r' ⟨s, s', hs', ⟨d, o, h⟩ | h⟩
  · cases d with
    | zero => cases h
    | succ d =>
      rw [copying] at h
      rcases g.absent_or_node r with hr | ⟨i, n, rfl, hn⟩
      · rw [copyLevel_absent hr] at h
        cases h
        exact .inl ⟨hr, rfl⟩
      · obtain ⟨-, i', n', rfl, hn', halike⟩ := alike_of_copyLevel_eq_ok (extends_of_copying_eq_ok d) hn h
        exact .inr ⟨n, n', hn, hs' i' n' hn', halike.mono fun _ _ => copiedAs_of_made hs'⟩
  · obtain ⟨c, hc, rfl, rfl⟩ := copyEndpoint_eq_ok h
    exact .inr ⟨_, _, deref?_of_character? hc, hs' _ _ (s.node?_add _), .leaf _⟩

theorem memberForm?_of_extends (h : g.Extends g') {m : Ref} (hm : g.memberForm? m ≠ none) :
    g'.memberForm? m ≠ none := by
  rcases g.absent_or_node m with hr | ⟨i, n, rfl, hn⟩
  · rw [memberForm?, hr] at hm
    exact absurd rfl hm
  · have hr : g.deref? (some i) = some n := hn
    have hr' : g'.deref? (some i) = some n := h i n hn
    rw [memberForm?, hr] at hm
    rw [memberForm?, hr']
    exact hm

/-- A node may be added to a tidy graph if it does what the nodes of a tidy graph do. -/
theorem IsTidy.add (hg : g.IsTidy) (hraw : ∀ t, n = .leaf (.raw t) → t.IsComplete)
    (hkind : ∀ c code, n = .leaf (.charClass c) → c.kind ≠ .undeclared code)
    (hmember : ∀ s m, n = .set s → m ∈ s.members ++ s.subtractedMembers → g.memberForm? m ≠ none) :
    (g.add n).2.IsTidy := by
  have hcases : ∀ {i m}, (g.add n).2.node? i = some m → g.node? i = some m ∨ n = m := by
    intro i m h
    simp only [Graph.add, node?, Array.getElem?_push] at h
    split at h
    · exact .inr (Option.some_injective _ h)
    · exact .inl h
  refine ⟨fun h => ?_, fun h => ?_, fun h hm => memberForm?_of_extends (g.extends_add n) ?_⟩
  · rcases hcases h with h | h
    · exact hg.raw h
    · exact hraw _ h
  · rcases hcases h with h | h
    · exact hg.kind h
    · exact hkind _ _ h
  · rcases hcases h with h | h
    · exact hg.member h hm
    · exact hmember _ _ h hm

/-- A copy of a node of a tidy graph may be added. -/
theorem IsTidy.add_alike (hg : g.IsTidy) (hs : s.IsTidy) {i : NodeId} (hn : g.node? i = some n)
    (h : n.Alike (g.CopiedAs s) n') : (s.add n').2.IsTidy := by
  refine hs.add ?_ ?_ ?_
  · rintro t rfl
    cases h
    exact hg.raw hn
  · rintro c code rfl
    cases h
    exact hg.kind hn
  · rintro t m rfl hm
    cases h with
    | set h =>
      have hmembers := List.rel_append h.members h.subtractedMembers
      obtain ⟨m₀, hm₀, hcopied⟩ := exists_mem_of_forall₂ hmembers.flip hm
      rw [← memberForm?_alike (isMirror_copiedAs g s).looksLike hcopied]
      exact hg.member hn hm₀

/-- **Copying leaves a tidy graph tidy.** -/
theorem copying_ensures_isTidy (hg : g.IsTidy) : ∀ (d : Nat) {o : List NodeId} {r : Ref},
    Ensures IsTidy (g.copying d o r) (fun r' s' => s'.IsTidy ∧ (g.deref? r ≠ none → r' ≠ none)) fun _ => True
  | 0, _, _ => .throw trivial
  | d + 1, o, r => by
    refine fun s hs => ⟨fun r' s' h => ⟨?_, ne_none_of_copyLevel_eq_ok h⟩, fun _ _ => trivial⟩
    rw [copying] at h
    rcases g.absent_or_node r with hr | ⟨i, n, rfl, hn⟩
    · rw [copyLevel_absent hr] at h
      cases h
      exact hs
    · by_cases hi : i ∈ o
      · rw [copyLevel_open hn hi] at h
        cases h
      · rw [copyLevel_new hn hi] at h
        obtain ⟨n', s₁, hn', h⟩ := run_bind_eq_ok.1 h
        cases h
        have hcopy : Ensures IsTidy (n.copy (copyEndpoint g) (g.copying d (o ++ [i]))) (fun _ => IsTidy)
            fun _ => True := by
          refine Node.copy_ensures (fun s c hs => ?_) (fun c _ => copying_ensures_isTidy hg d)
            fun _ => ⟨trivial, trivial⟩
          exact hs.add (fun _ h => by cases h) (fun _ _ h => by cases h) fun _ _ h => by cases h
        have halike := (Node.alike_of_copy_eq_ok (isGrowth_extends (extends_of_copying_eq_ok d _)) hn').2
        exact hg.add_alike ((hcopy s hs).1 n' s₁ hn') hn (halike.mono fun _ _ => copiedAs_of_made (.refl s₁))

theorem IsMirror.label_eq (hR : g.IsMirror g' R) (h : R r r') : g.label r = g'.label r' := by
  unfold label
  rcases hR.deref? h with ⟨hr, hr'⟩ | ⟨n, n', hr, hr', hn⟩
  · rw [hr, hr']
  · rw [hr, hr']
    exact hn.label_eq

/-- Failures that are alike have the same message. -/
theorem IsMirror.message_eq (hR : g.IsMirror g' R) {f f' : Failure} (h : f.Alike R f') :
    f.message g = f'.message g' := by
  cases h with
  | invalid h why => rw [Failure.message, Failure.message, hR.label_eq h]
  | @recursion query path path' h =>
    have hlabels : path.map (fun i => g.label (some i)) = path'.map fun i => g'.label (some i) := by
      induction h with
      | nil => rfl
      | cons h _ ih => rw [List.map_cons, List.map_cons, ih, hR.label_eq h]
    rw [Failure.message, Failure.message, hlabels]
  | broken | exhausted => rfl

/-- Outcomes that are alike are the same, up to the numbers of nodes. -/
theorem IsMirror.sameOutcome {α : Type} (hR : g.IsMirror g' R) {x x' : Except Failure α}
    (h : AlikeOutcome R Eq x x') : SameOutcome g g' x x' := by
  cases h with
  | ok h => exact h ▸ .ok _
  | error h => exact .error h.kind_eq (hR.message_eq h)

/-- **Patterns that mirror each other are written alike** if there is no cycle. -/
theorem IsMirror.render_alike (hR : g.IsMirror g' R) (hg : g.IsTidy) (hg' : g'.IsTidy)
    (hrr' : R r r') (hr : ¬ g.HasCycleFrom r) : AlikeOutcome R Eq (g.render r) (g'.render r') := by
  obtain ⟨hmeaning, hne⟩ := meaning_eq_toldOf hg hr .text
  have halike := hR.meaning (4 * g.size + 1) .text r r' hrr'
  rw [hmeaning] at halike
  have hsettled : g'.Settled (4 * g.size + 1) .text r' := by
    intro hf
    rw [hf] at halike
    generalize hx : g.toldOf .text r = x at halike hne
    cases halike with
    | error hf => cases hf; exact hne rfl
  have htold : g'.toldOf .text r' = g'.meaning (4 * g.size + 1) .text r' :=
    told_eq_of_settled _ (g'.unopened_lt_depth _) (g'.pending_none _ _) hsettled
  rw [render_eq_told hg, render_eq_told hg', htold]
  refine halike.bind ?_
  rintro ⟨t, fl⟩ ⟨t', fl'⟩ h
  obtain ⟨rfl, rfl⟩ : t = t' ∧ fl = fl' := h
  exact .ok rfl

/-- **A copy is written as the original is:** the same text, with the same note on subtractions, or
an error with the same message. -/
theorem render_copy (hg : g.IsTidy) (h : g.copy r = .ok (r', g')) : (∀ x, g.render r = .ok x → g'.render r' = .ok x) ∧
      ∀ f, g.render r = .error f → ∃ f', g'.render r' = .error f' ∧ f'.message g' = f.message g := by
  have hg' : g'.IsTidy := ((copying_ensures_isTidy hg _ g hg).1 r' g' h).1
  have hR := isMirror_copiedAs g g'
  have halike := hR.render_alike hg hg' ⟨g, g', .refl g', .inl ⟨_, _, h⟩⟩ (not_hasCycleFrom_of_copying_eq_ok _ h)
  generalize g.render r = x at halike
  generalize g'.render r' = x' at halike
  cases halike with
  | ok h =>
    subst h
    exact ⟨fun _ hx => hx, fun _ hf => (nomatch hf)⟩
  | error hf =>
    refine ⟨fun _ hx => (nomatch hx), fun f hf' => ⟨_, rfl, ?_⟩⟩
    cases hf'
    exact (hR.message_eq hf).symm

/-- **Neither kept answers nor shared nodes are seen.** In a tidy graph, cyclic or not, the text with
its note on subtractions, the core, emptiness and atomicity have the same outcome whether answers are
kept or every question is answered anew, a recursion error with its path included. A copy of a pattern
shares no node, and it is written as the pattern is. -/
theorem memory_invisible (g : Graph) (hg : g.IsTidy) (r : Ref) :
    (g.render r = (g.questions false .text r).rendering ∧
      g.core r = (g.questions false .core r).answer ∧
      g.isEmpty r = (g.questions false .empty r).answer ∧
      g.isSingle r = (g.questions false .single r).answer) ∧
    ∀ r' g', g.copy r = .ok (r', g') →
      (∀ x, g.render r = .ok x → g'.render r' = .ok x) ∧
      ∀ f, g.render r = .error f →
        ∃ f', g'.render r' = .error f' ∧ f'.message g' = f.message g := by
  have hanswer : ∀ q, (g.questions true q r).answer = (g.questions false q r).answer := fun q =>
    (questions_matches hg true q r).answer_eq.trans (questions_matches hg false q r).answer_eq.symm
  refine ⟨⟨?_, hanswer .core, hanswer .empty, hanswer .single⟩, fun r' g' h => render_copy hg h⟩
  rw [render_eq_told hg]
  exact (questions_matches hg false .text r).rendering_eq.symm

/-- A backreference and a digit, both shared by a sequence and its alternation. -/
def sharedDigits : Graph :=
  ⟨#[.leaf (.backreference (.numbered 1)), .leaf (.literal "2"),
    .concat [some 0, some 1, some 0], .alternation [some 2, some 1, some 2]]⟩

theorem memory_invisible_sharedDigits :
    sharedDigits.IsTidy ∧
      sharedDigits.render (some 3) = (sharedDigits.questions false .text (some 3)).rendering := by
  have htidy : sharedDigits.IsTidy := by
    refine ⟨fun h => ?_, fun h => ?_, fun h _ => ?_⟩ <;> simpa [sharedDigits] using mem_nodes h
  exact ⟨htidy, (memory_invisible sharedDigits htidy (some 3)).1.1⟩

end Graph
end RegexBuilder
