/-
# Writing only appends

In the one output of a session a digit is kept apart from an escape before it by parentheses around the escape. That
changes what was written before, but not what was there when the turn of a node began (`Graph.write_appends`). It is
said of all moments of a session: `Graph.course` lists them as `Rule.run` takes them, also those before a failure.
-/

import RegexBuilder.Proofs.Sharing

namespace RegexBuilder

open List Option Session

/-! ### The moments of a session -/

/-- A moment of a session: between two steps of a rule, or where a question is asked while those of `o` are open. -/
inductive Moment where
  | step (s : Session)
  | asked (depth : Nat) (o : Open) (q : Question) (r : Ref) (s : Session)

/-- The session at the moment. -/
def Moment.session : Moment → Session
  | step s | asked _ _ _ _ s => s

/-- The question that is asked at the moment. -/
def Moment.question? : Moment → Option (Question × Ref)
  | step _ => none
  | asked _ _ q r _ => some (q, r)

/-- The moments of a rule whose text begins at `base`, where `deeper` lists those of a question. -/
def Rule.course {α : Type} (asking : Asking) (deeper : Question → Ref → Session → List Moment) (base : Nat) :
    Rule α → Session → List Moment
  | done _, s | objection _ _, s | fault _, s => [.step s]
  | output t next, s => .step s :: next.course asking deeper base (s.write t)
  | reading next, s => .step s :: (next (s.out.drop base)).course asking deeper base s
  | separation place next, s => .step s :: next.course asking deeper base (s.separateEscape (base + place))
  | subtraction next, s => .step s :: next.course asking deeper base { s with subtraction := true }
  | question q r next, s => deeper q r s ++
    match asking q r s with
    | .ok (a, s') => (next a).course asking deeper base s'
    | .error _ => []

namespace Graph

/-- The node whose rule is to answer: the answer is not known, and the question is not open. -/
def turn? (g : Graph) (o : Open) (q : Question) (r : Ref) (s : Session) : Option (NodeId × Node) := do
  let i ← r
  let n ← g.node? i
  if ((s.kept q).lookup i).isNone ∧ i ∉ o q then some (i, n) else none

/-- The moments of a question, from the one at which it is asked. -/
def course (g : Graph) : (depth : Nat) → Open → Question → Ref → Session → List Moment
  | 0, o, q, r, s => [.asked 0 o q r s]
  | d + 1, o, q, r, s => .asked (d + 1) o q r s ::
    match g.turn? o q r s with
    | none => []
    | some (i, n) =>
      (n.rule g i q).course (g.asking true d (o.enter q i)) (g.course d (o.enter q i)) s.out.length s

/-- The moments in which the text of a pattern is found. -/
def moments (g : Graph) (r : Ref) : List Moment := g.course (4 * g.size + 1) Open.none .text r {}

end Graph

/-- The moments of the question that is asked at the moment. -/
def Moment.course (g : Graph) : Moment → List Moment
  | step _ => []
  | asked d o q r s => g.course d o q r s

/-- The session in which the question that is asked at the moment is answered. -/
def Moment.after? (g : Graph) : Moment → Option Session
  | step _ => none
  | asked d o q r s => (g.asking true d o q r s).toOption.map Prod.snd

theorem Graph.turn?_eq_some {g : Graph} {o : Open} {q : Question} {r : Ref} {s : Session} {i : NodeId} {n : Node}
    (h : g.turn? o q r s = some (i, n)) : r = some i ∧ g.node? i = some n ∧ (s.kept q).lookup i = none ∧ i ∉ o q := by
  obtain ⟨j, hr, h⟩ := bind_eq_some_iff.1 h
  obtain ⟨m, hm, h⟩ := bind_eq_some_iff.1 h
  split at h
  · next hnew =>
    cases h
    exact ⟨hr, hm, isNone_iff_eq_none.1 hnew.1, hnew.2⟩
  · cases h

/-! ### Every moment leaves what was there -/

/-- What is asked at the moment is asked in a session whose output is complete. -/
def Moment.IsSound (g : Graph) : Moment → Prop
  | step _ => True
  | asked d o q r s => g.unopened o < d ∧ g.Pending o q r ∧ s.IsValid g ∧ s.out.IsComplete

/-- An answer in a session is what the question is told, and what it shows is added to the output. -/
theorem Matches.exists_of_eq_ok {g : Graph} {A : Oracle} {q : Question} {r : Ref} {s s' : Session} {a : q.Answer}
    (h : Matches g s (.ok (a, s')) (A.draft q r)) :
    ∃ fl, A q r = .ok (a, fl) ∧ s'.out = s.out ++ q.shown a ∧ s'.IsValid g := by
  unfold Oracle.draft at h
  cases hx : A q r with
  | error f =>
    rw [hx] at h
    cases (show Except.ok (a, s') = .error f from h)
  | ok x =>
    rw [hx] at h
    obtain ⟨s₁, hs₁, hout, -, hvalid⟩ := h
    cases hs₁
    exact ⟨x.2, rfl, hout, hvalid⟩

/-- **Through all its moments a rule leaves what stood before its own text,** if that is so of what it asks. -/
theorem Rule.Neat.course_appends {α : Type} {g : Graph} {A : Oracle} {asking : Asking} {o : Open} {own : Question}
    {deeper : Question → Ref → Session → List Moment} {i : NodeId} {s₀ : Session} (hs₀ : s₀.out.IsComplete)
    (hpending : g.Pending o own (some i)) (hA : ∀ q r x, A q r = .ok x → ∃ e, g.meaning e q r = .ok x)
    (hask : ∀ q r s, g.Pending (o.enter own i) q r → s.IsValid g → s.out.IsComplete →
      Matches g s (asking q r s) (A.draft q r))
    (hdeeper : ∀ q r s, g.Pending (o.enter own i) q r → s.IsValid g → s.out.IsComplete →
      ∀ m ∈ deeper q r s, m.IsSound g ∧ s.out <+: m.session.out)
    {Q : α → Draft → Prop} {p : Rule α} {dr : Draft} (hneat : p.Neat A Q dr) (hrest : g.Remains own i p dr)
    {s : Session} (hout : s.out = s₀.out ++ dr.text) (hs : s.IsValid g) :
    ∀ m ∈ p.course asking deeper s₀.out.length s, m.IsSound g ∧ s₀.out <+: m.session.out := by
  have hgoes : ∀ {s : Session} {dr : Draft}, s.out = s₀.out ++ dr.text → s₀.out <+: s.out := fun h => ⟨_, h.symm⟩
  have hstep : (Moment.step s).IsSound g ∧ s₀.out <+: (Moment.step s).session.out := ⟨trivial, hgoes hout⟩
  induction p generalizing dr s with
  | done | objection | fault => exact forall_mem_singleton.2 hstep
  | output t next ih =>
    have hwrite : (s.write t).out = s₀.out ++ (dr.write t).text := by
      rw [Session.write, hout, append_assoc]
      rfl
    exact forall_mem_cons.2 ⟨hstep, ih hneat hrest hwrite (hs.of_kept (s.kept_write t) id) ⟨trivial, hgoes hwrite⟩⟩
  | reading next ih =>
    have htext : s.out.drop s₀.out.length = dr.text := by rw [hout, drop_left]
    rw [course, htext]
    exact forall_mem_cons.2 ⟨hstep, ih _ hneat hrest hout hs hstep⟩
  | separation place next ih =>
    -- the place is not where the text of the rule begins, and what stands before that is complete
    have hseparate : (s.separateEscape (s₀.out.length + place)).out = s₀.out ++ Session.separate place dr.text := by
      rw [Session.separateEscape, hout, separate_append hs₀ hneat.1]
    exact forall_mem_cons.2 ⟨hstep, ih hneat.2 hrest hseparate (hs.of_kept (s.kept_separateEscape _) id)
      ⟨trivial, _, hseparate.symm⟩⟩
  | subtraction next ih =>
    exact forall_mem_cons.2 ⟨hstep, ih hneat hrest hout (hs.of_kept (s.kept_subtraction true) fun _ => rfl) hstep⟩
  | question q r next ih =>
    have hcomplete : s.out.IsComplete := hout ▸ Text.isComplete_append hs₀ hneat.1
    have hasks := hpending.enter hrest
    rw [course]
    refine forall_mem_append.2 ⟨fun m hm => ?_, ?_⟩
    · exact (hdeeper q r s hasks hs hcomplete m hm).imp_right (hgoes hout).trans
    have hq := hask q r s hasks hs hcomplete
    cases hx : asking q r s with
    | error => exact fun _ hm => nomatch hm
    | ok x =>
      obtain ⟨fl, htold, hout', hvalid⟩ := (hx ▸ hq).exists_of_eq_ok
      obtain ⟨e, he⟩ := hA q r _ htold
      have hanswered : x.2.out = s₀.out ++ (dr.answered (x.1, fl)).text := by
        rw [hout', hout, append_assoc]
        rfl
      exact ih x.1 (hneat.2 _ htold) (hrest.answered he) hanswered hvalid ⟨trivial, hgoes hanswered⟩

namespace Graph

variable {g : Graph}

/-- **Through all the moments of a question what stood before it is left as it is.** -/
theorem course_appends (hg : g.IsTidy) : ∀ {d : Nat} {o : Open} (q : Question) (r : Ref) (s : Session),
    g.unopened o < d → g.Pending o q r → s.IsValid g → s.out.IsComplete →
      ∀ m ∈ g.course d o q r s, m.IsSound g ∧ s.out <+: m.session.out
  | 0, _, _, _, _, hd, _, _, _ => absurd hd (Nat.not_lt_zero _)
  | d + 1, o, q, r, s, hd, hpending, hs, hcomplete => by
    rw [course]
    refine forall_mem_cons.2 ⟨⟨⟨hd, hpending, hs, hcomplete⟩, prefix_refl _⟩, ?_⟩
    cases hturn : g.turn? o q r s with
    | none => exact fun _ hm => nomatch hm
    | some x =>
      obtain ⟨rfl, hn, -, hi⟩ := turn?_eq_some hturn
      have hd' := unopened_enter_lt (lt_size_of_node? hn) hi
      have hneat : (x.2.rule g x.1 q).Neat (g.told d (o.enter q x.1)) (fun a dr => dr.text = q.shown a) {} :=
        (rule_neat hg d hn q).of_answers fun _ _ _ => meaning_of_told_eq_ok
      exact hneat.course_appends hcomplete hpending (fun _ _ _ hx => ⟨d, meaning_of_told_eq_ok hx⟩)
        (fun q' r' s' hp hs' hc => asking_matches hg true q' r' s' (by omega) hp hs' hc)
        (fun q' r' s' hp hs' hc => course_appends hg q' r' s' (by omega) hp hs' hc)
        (remains_rule hn) (List.append_nil _).symm hs

/-- The answer to a question about a node is kept. -/
theorem lookup_of_asking {d : Nat} {o : Open} {q : Question} {i : NodeId} {n : Node} {s s' : Session} {a : q.Answer}
    (hn : g.node? i = some n) (h : g.asking true d o q (some i) s = .ok (a, s')) : (s'.kept q).lookup i = some a := by
  cases d with
  | zero => cases h
  | succ =>
    rcases asking_cases h with ⟨hr, -⟩ | ⟨j, m, hj, -, ⟨hk, rfl⟩ | ⟨s₁, -, rfl⟩⟩
    · cases hn.symm.trans hr
    · cases hj
      rw [kept_write]
      exact hk
    · cases hj
      rw [kept_keep_self, lookup_cons_self]

/-- **Writing only appends.** Whenever a text is asked for while a pattern of a tidy graph is rendered, the output is
complete: it ends in an even number of backslashes. Through all moments of that question the output goes on from what
it was. If the question is answered, then what was added is the text that the node has alone, and this text is kept. -/
theorem write_appends (hg : g.IsTidy) {r p : Ref} {m : Moment} (hm : m ∈ g.moments r)
    (hp : m.question? = some (.text, p)) :
    m.session.out.IsComplete ∧ (∀ m' ∈ m.course g, m.session.out <+: m'.session.out) ∧
      ∀ s, m.after? g = some s → ∃ x, g.render p = .ok x ∧ s.out = m.session.out ++ x.text ∧
        ∀ i n, p = some i → g.node? i = some n → s.texts.lookup i = some x.text := by
  have hfirst := course_appends hg .text r {} (g.unopened_lt_depth _) (g.pending_none _ _) (isValid_empty g)
    Text.isComplete_nil
  cases m with
  | step => cases hp
  | asked d o q p' s =>
    cases hp
    obtain ⟨⟨hd, hpending, hs, hcomplete⟩, -⟩ := hfirst _ hm
    refine ⟨hcomplete, fun m hm => (course_appends hg .text p s hd hpending hs hcomplete m hm).2, fun s' hafter => ?_⟩
    obtain ⟨⟨t, _⟩, ht, rfl⟩ := map_eq_some_iff.1 hafter
    have ht := toOption_eq_some.1 ht
    obtain ⟨fl, htold, hout, -⟩ := (ht ▸ asking_matches hg true .text p s hd hpending hs hcomplete).exists_of_eq_ok
    refine ⟨⟨t, fl⟩, render_of_meaning hg (meaning_of_told_eq_ok htold), hout, ?_⟩
    rintro i n rfl hn
    exact lookup_of_asking hn ht

/-- A shared node whose text parts a digit from the escape before it, behind an escaped backslash. -/
def sharedBehindEscape : Graph where
  nodes := #[.leaf (.literal "\\"), .leaf (.backreference (.numbered 1)), .leaf (.literal "0"),
    .concat [some 1, some 2], .concat [some 0, some 3, some 3]]

theorem write_appends_sharedBehindEscape : sharedBehindEscape.IsTidy ∧
    ∃ m ∈ sharedBehindEscape.moments (some 4), m.question? = some (.text, some 3) ∧ m.session.out = "\\\\" ∧
      (∀ m' ∈ m.course sharedBehindEscape, "\\\\" <+: m'.session.out) ∧
      ∃ s x, m.after? sharedBehindEscape = some s ∧ sharedBehindEscape.render (some 3) = .ok x ∧
        s.out = "\\\\" ++ x.text ∧ s.out = "\\\\(?:\\1)0" := by
  have htidy : sharedBehindEscape.IsTidy := by
    refine ⟨fun h => ?_, fun h => ?_, fun h _ => ?_⟩ <;> simpa [sharedBehindEscape] using mem_nodes h
  have hreached : ∃ m ∈ sharedBehindEscape.moments (some 4), m.question? = some (.text, some 3) ∧
      m.session.out = "\\\\" ∧ (m.after? sharedBehindEscape).map Session.out = some "\\\\(?:\\1)0" := by
    decide +kernel
  obtain ⟨m, hm, hp, hout, hafter⟩ := hreached
  obtain ⟨s, hs, hafter⟩ := map_eq_some_iff.1 hafter
  obtain ⟨-, hgoes, happends⟩ := write_appends htidy hm hp
  obtain ⟨x, hx, hadds, -⟩ := happends s hs
  exact ⟨htidy, m, hm, hp, hout, hout ▸ hgoes, s, x, hs, hx, hout ▸ hadds, hafter⟩

end Graph

end RegexBuilder
