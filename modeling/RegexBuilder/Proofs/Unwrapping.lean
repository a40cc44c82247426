/-
# Unwrapping changes nothing that can be seen

A container on the way to what a pattern comes down to writes what it wraps, but in a session of its own: with more
texts open, and after quiet questions. Neither makes a difference to a text (`Graph.asking_echoes`), as long as it
is written at all. So the text follows the chain of containers down to its end (`Graph.render_core`,
`Graph.core_preserves`).
-/

import RegexBuilder.Proofs.Blankness

namespace RegexBuilder

open List Rule Session

/-! ### Sessions that differ in quiet answers -/

namespace Session.Learns

variable {g : Graph} {s s' s₁ s₁' : Session}

/-- Sessions that differ in quiet answers still do so after each has learned more of them. -/
theorem after (h : s.Learns g s') (h₁ : s.Learns g s₁) (h₁' : s'.Learns g s₁') : s₁.Learns g s₁' :=
  ⟨h₁'.out.trans (h.out.trans h₁.out.symm), h₁'.subtraction.trans (h.subtraction.trans h₁.subtraction.symm),
    h₁'.texts.trans (h.texts.trans h₁.texts.symm), h₁'.upholds⟩

theorem write (h : s.Learns g s') (t : Text) : (s.write t).Learns g (s'.write t) :=
  ⟨congrArg (· ++ t) h.out, h.subtraction, h.texts, h.upholds.of_kept (s'.kept_write t)⟩

theorem separateEscape (h : s.Learns g s') (place : Nat) :
    (s.separateEscape place).Learns g (s'.separateEscape place) :=
  ⟨congrArg (separate place) h.out, h.subtraction, h.texts, h.upholds.of_kept (s'.kept_separateEscape place)⟩

theorem noteSubtraction (h : s.Learns g s') :
    ({ s with subtraction := true } : Session).Learns g { s' with subtraction := true } :=
  ⟨h.out, rfl, h.texts, h.upholds.of_kept (s'.kept_subtraction true)⟩

end Session.Learns

/-- **A rule does the same in sessions that differ in quiet answers,** if the texts that it asks for are the same. -/
theorem Rule.run_echoes {α : Type} {g : Graph} {asking asking' : Asking} (hasking : asking.IsInformed g)
    (hasking' : asking'.IsInformed g)
    (htext : ∀ r s s' t s₁, s.Upholds g.Attests → s.Learns g s' → asking .text r s = .ok (t, s₁) →
      ∃ s₁', asking' .text r s' = .ok (t, s₁') ∧ s₁.Learns g s₁')
    {p : Rule α} {base : Nat} {a : α} {s s' s₁ : Session} (hs : s.Upholds g.Attests) (h : s.Learns g s')
    (hp : p.run asking base s = .ok (a, s₁)) : ∃ s₁', p.run asking' base s' = .ok (a, s₁') ∧ s₁.Learns g s₁' := by
  induction p generalizing s s' with
  | done =>
    cases hp
    exact ⟨s', rfl, h⟩
  | objection | fault => cases hp
  | output t next ih => exact ih (hs.of_kept (s.kept_write t)) (h.write t) hp
  | reading next ih =>
    rw [run_reading, h.out]
    exact ih _ hs h hp
  | separation place next ih => exact ih (hs.of_kept (s.kept_separateEscape _)) (h.separateEscape _) hp
  | subtraction next ih => exact ih (hs.of_kept (s.kept_subtraction true)) h.noteSubtraction hp
  | question q r next ih =>
    rw [run_question] at hp
    obtain ⟨⟨b, s₂⟩, hb, hp⟩ := bind_eq_ok.1 hp
    have hs₂ := (hasking.attests hs hb).2
    have hanswer : ∃ s₂', asking' q r s' = .ok (b, s₂') ∧ s₂.Learns g s₂' := by
      by_cases hq : q = .text
      · subst hq
        exact htext r s s' b s₂ hs h hb
      · obtain ⟨hmeans, hlearns⟩ := hasking.of_quiet hq hs hb
        obtain ⟨s₂', hb', hlearns'⟩ := hasking'.learns q r b s' hq hmeans h.upholds
        exact ⟨s₂', hb', h.after hlearns hlearns'⟩
    obtain ⟨s₂', hb', hlearns⟩ := hanswer
    obtain ⟨s₁', hp', h₁⟩ := ih b hs₂ hlearns hp
    exact ⟨s₁', by rw [run_question, hb']; exact hp', h₁⟩

namespace Graph

variable {g : Graph} {r u : Ref} {i : NodeId} {n : Node} {x : Rendering}

/-- **A text that is written is written alike where fewer texts are open,** whatever is known of quiet questions. -/
theorem asking_echoes : ∀ {d d' : Nat} {o o' : Open} {r : Ref} {s s' s₁ : Session} {t : Text}, o.IsOfTexts →
    o'.IsOfTexts → o' .text ⊆ o .text → g.unopened o < d → g.unopened o' < d' → s.Upholds g.Attests → s.Learns g s' →
      g.asking true d o .text r s = .ok (t, s₁) →
        ∃ s₁', g.asking true d' o' .text r s' = .ok (t, s₁') ∧ s₁.Learns g s₁'
  | 0, _, _, _, _, _, _, _, _, _, _, _, hd, _, _, _, _ | _, 0, _, _, _, _, _, _, _, _, _, _, _, hd, _, _, _ =>
    absurd hd (Nat.not_lt_zero _)
  | d + 1, d' + 1, o, o', r, s, s', s₁, t, ho, ho', hsub, hd, hd', hs, h, ht => by
    rcases g.absent_or_node r with hr | ⟨i, n, rfl, hn⟩
    · rw [asking, level_absent hr] at ht
      cases ht
      exact ⟨s', level_absent hr s', h⟩
    · rw [asking, level_node hn] at ht
      have hkept : s'.kept .text = s.kept .text := h.texts
      cases hk : (if true then (s.kept .text).lookup i else none) with
      | some =>
        rw [visit_kept hk] at ht
        cases ht
        rw [asking, level_node hn]
        exact ⟨_, visit_kept (hkept ▸ hk), h.write _⟩
      | none =>
        by_cases hi : i ∈ o .text
        · rw [visit_open hk hi] at ht
          cases ht
        · have hi' : i ∉ o' .text := fun hi' => hi (hsub hi')
          have hdeep : g.unopened (o.enter .text i) < d :=
            Nat.lt_of_lt_of_le (unopened_enter_lt (lt_size_of_node? hn) hi) (Nat.le_of_lt_succ hd)
          have hdeep' : g.unopened (o'.enter .text i) < d' :=
            Nat.lt_of_lt_of_le (unopened_enter_lt (lt_size_of_node? hn) hi') (Nat.le_of_lt_succ hd')
          have hsub' : o'.enter .text i .text ⊆ o.enter .text i .text := by
            rw [Open.enter_self, Open.enter_self]
            exact append_subset.2 ⟨subset_append_of_subset_left _ hsub, subset_append_right _ _⟩
          rw [visit_new hk hi, start_apply] at ht
          obtain ⟨⟨b, s₂⟩, hb, ht⟩ := bind_eq_ok.1 ht
          cases ht
          obtain ⟨s₂', hb', h₂⟩ := run_echoes (asking_isInformed (ho.enter i) hdeep)
            (asking_isInformed (ho'.enter i) hdeep')
            (fun _ _ _ _ _ hs₃ h₃ => asking_echoes (ho.enter i) (ho'.enter i) hsub' hdeep hdeep' hs₃ h₃) hs h hb
          have hask : g.asking true (d' + 1) o' .text (some i) s' = .ok (b, s₂'.keep .text i b) := by
            rw [asking, level_node hn, visit_new (hkept ▸ hk) hi', start_apply, h.out, hb']
            rfl
          refine ⟨_, hask, h₂.out, h₂.subtraction, congrArg ((i, b) :: ·) h₂.texts, ?_⟩
          exact ((asking_isInformed ho' hd').attests h.upholds hask).2

/-! ### The text follows the containers -/

/-- What is written after quiet questions alone is what the pattern is rendered as. -/
theorem render_of_asking {d : Nat} {o : Open} {s s₁ : Session} {t : Text} (ho : o.IsOfTexts) (hd : g.unopened o < d)
    (hs : ({} : Session).Learns g s) (h : g.asking true d o .text r s = .ok (t, s₁)) :
    g.render r = .ok ⟨s₁.out, s₁.subtraction⟩ := by
  have hback : s.Learns g {} := ⟨hs.out.symm, hs.subtraction.symm, hs.texts.symm, upholds_empty _⟩
  obtain ⟨s₁', h', hlearns⟩ := asking_echoes ho Open.isOfTexts_none (nil_subset _) hd
    (g.unopened_lt_depth _) hs.upholds hback h
  exact Ask.rendering_eq_ok.2 ⟨t, s₁', h', by rw [hlearns.out, hlearns.subtraction]⟩

/-- A node is rendered by its rule, which asks where only the text of the node is open. -/
theorem exists_write_of_render (hn : g.node? i = some n) (h : g.render (some i) = .ok x) :
    ∃ d o s, o.IsOfTexts ∧ g.unopened o < d ∧ (n.write g i).run (g.asking true d o) 0 {} = .ok ((), s) ∧
      x = ⟨s.out, s.subtraction⟩ := by
  obtain ⟨t, s, hs, rfl⟩ := Ask.rendering_eq_ok.1 h
  have hi : i ∉ Open.none .text := fun hi => nomatch hi
  have hk : (if true then (({} : Session).kept .text).lookup i else none) = none := rfl
  have hd := unopened_enter_lt (lt_size_of_node? hn) hi
  have hdepth := g.unopened_le Open.none
  rw [questions, asking, level_node hn, visit_new hk hi, start_apply, Node.rule, run_bind] at hs
  obtain ⟨⟨t', s₁⟩, hs₁, hs⟩ := bind_eq_ok.1 hs
  obtain ⟨⟨_, s₂⟩, hs₂, hs₁⟩ := bind_eq_ok.1 hs₁
  cases hs₁
  cases hs
  exact ⟨4 * g.size, _, s₂, Open.isOfTexts_none.enter i, Nat.lt_of_lt_of_le hd hdepth, hs₂, rfl⟩

/-- A quantifier that says once writes what its child comes down to, or nothing if that is empty. -/
theorem render_of_once {bounds : Bounds} {c : Ref} (hn : g.node? i = some (.quantified bounds c))
    (honce : bounds.isOnce = true) (hu : g.Means .core c u) {asking : Asking} (hasking : asking.IsInformed g)
    {s : Session} (hwrite : ∀ {r s₁}, ({} : Session).Learns g s₁ → (Rule.write r).run asking 0 s₁ = .ok ((), s) →
      g.render r = .ok ⟨s.out, s.subtraction⟩) (h : (writeQuantified g i bounds c).run asking 0 {} = .ok ((), s)) :
    g.render u = .ok ⟨s.out, s.subtraction⟩ := by
  rw [writeQuantified_eq, run_bind, run_ask] at h
  obtain ⟨⟨empty, s₁⟩, hempty, h⟩ := bind_eq_ok.1 h
  obtain ⟨hempty, hlearns⟩ := hasking.of_quiet (by decide) (upholds_empty _) hempty
  cases empty with
  | true =>
    cases h
    obtain ⟨v, hv, hempty⟩ := (means_empty_once hn honce).1 hempty
    cases hv.unique hu
    rw [render_of_means_empty hempty, hlearns.out, hlearns.subtraction]
  | false =>
    obtain ⟨⟨v, s₂⟩, hv, h⟩ := bind_eq_ok.1 h
    obtain ⟨hv, hlearns'⟩ := hasking.of_quiet (by decide) hlearns.upholds hv
    cases hv.unique hu
    have h : (writeRepeated g i bounds u).run asking 0 s₂ = .ok ((), s) := h
    unfold writeRepeated at h
    split at h
    · cases h
    · cases h
    · rw [if_pos honce] at h
      exact hwrite (hlearns.trans hlearns') h

/-- **A container is rendered as what it wraps,** or as what both come down to. -/
theorem render_of_wraps (hn : g.node? i = some n) (hwraps : n.Wraps g r) (hu : g.Means .core r u)
    (h : g.render (some i) = .ok x) : g.render r = .ok x ∨ g.render u = .ok x := by
  obtain ⟨d, o, s, ho, hd, hs, rfl⟩ := exists_write_of_render hn h
  have hasking := asking_isInformed ho hd
  have hempty := upholds_empty g.Attests
  have hwrite : ∀ {r s₁}, ({} : Session).Learns g s₁ → (Rule.write r).run (g.asking true d o) 0 s₁ = .ok ((), s) →
      g.render r = .ok ⟨s.out, s.subtraction⟩ := by
    intro r s₁ hlearns hs
    rw [Rule.write, run_question] at hs
    obtain ⟨⟨t, s₂⟩, ht, hs⟩ := bind_eq_ok.1 hs
    cases hs
    exact render_of_asking ho hd hlearns ht
  cases hwraps with
  | concat hrs =>
    obtain ⟨s₁, hs₁, hlearns⟩ := hasking.run_learns hrs 0 hempty
    rw [Node.write, run_bind, hs₁] at hs
    exact .inl (hwrite hlearns hs)
  | alternation =>
    rw [Node.write, run_bind] at hs
    obtain ⟨⟨_, s₁⟩, hs₁, hs⟩ := bind_eq_ok.1 hs
    cases hs
    exact .inl (hwrite (.refl hempty) hs₁)
  | once honce r => exact .inr (render_of_once hn honce hu hasking hwrite hs)
  | group => exact .inl (hwrite (.refl hempty) hs)

theorem render_absent (h : g.deref? r = none) : g.render r = .ok ⟨[], false⟩ :=
  Ask.rendering_eq_ok.2 ⟨[], {}, level_absent h _, rfl⟩

/-- **A pattern is rendered as what it comes down to.** -/
theorem render_core (hu : g.Means .core r u) : g.render r = .ok x → g.render u = .ok x := by
  refine core_induction (motive := fun r u => g.render r = .ok x → g.render u = .ok x) ?_ ?_ ?_ hu
  · intro r hr h
    rw [render_absent hr] at h
    rw [render_absent rfl]
    exact h
  · exact fun _ _ h => h
  · intro i n r u hn hwraps hu ih h
    rcases render_of_wraps hn hwraps hu h with h | h
    · exact ih h
    · exact h

/-- **Unwrapping changes nothing that can be seen.** If a pattern is rendered then it comes down to something. That
has the same text, it is known of both whether they are empty and single, with the same answers, and it comes down to
itself. -/
theorem core_preserves (h : g.render r = .ok x) : ∃ u, g.core r = .ok u ∧ g.render u = .ok x ∧
    (∃ b, g.isEmpty u = .ok b ∧ g.isEmpty r = .ok b) ∧ (∃ c, g.isSingle u = .ok c ∧ g.isSingle r = .ok c) ∧
      g.core u = .ok u := by
  obtain ⟨u, hu⟩ := (isClear_of_render h).core
  have hrender := render_core hu h
  obtain ⟨b, hb⟩ := (isClear_of_render hrender).empty
  obtain ⟨c, hc⟩ := (isClear_of_render hrender).single
  obtain ⟨hrb, hrc⟩ := means_of_core hu hb hc
  exact ⟨u, core_eq_ok_iff.2 hu, hrender, ⟨b, isEmpty_eq_ok_iff.2 hb, isEmpty_eq_ok_iff.2 hrb⟩,
    ⟨c, isSingle_eq_ok_iff.2 hc, isSingle_eq_ok_iff.2 hrc⟩, core_eq_ok_iff.2 (means_core_core hu)⟩

/-- A backreference in a sequence with nothing, once, in a group that is the only branch of an alternation. -/
def wrappedReference : Graph :=
  ⟨#[.leaf (.backreference (.numbered 1)), .leaf (.literal []), .concat [some 1, some 0, none],
    .quantified ⟨1, 1, true⟩ (some 2), .group (some 3), .alternation [some 4]]⟩

theorem core_preserves_wrappedReference :
    (∃ u, wrappedReference.core (some 5) = .ok u ∧ wrappedReference.render u = .ok ⟨"\\1", false⟩ ∧
      (∃ b, wrappedReference.isEmpty u = .ok b ∧ wrappedReference.isEmpty (some 5) = .ok b) ∧
      (∃ c, wrappedReference.isSingle u = .ok c ∧ wrappedReference.isSingle (some 5) = .ok c) ∧
      wrappedReference.core u = .ok u) ∧
    wrappedReference.core (some 5) = .ok (some 0) :=
  ⟨core_preserves (by decide +kernel), by decide +kernel⟩

end Graph
end RegexBuilder
