/-
# Empty patterns are those that are written as nothing

Whether a pattern is empty and what its text is are questions with rules of their own, and they agree
(`Graph.isEmpty_iff_blank`). Only groups and alternations with one branch write something without asking whether they
are empty themselves, and emptiness goes down along these (`Graph.asking_blank`).

In a session what stands before a node may be moved into its text. So it is said of the output as a whole that it is
not blank once something that is not empty has been written (`Session.IsVoiced`), and `Rule.Notes` follows a rule with
what is known of the output.
-/

import RegexBuilder.Proofs.Wrapping

namespace RegexBuilder

open List Rule Session

variable {α : Type} {g : Graph} {asking : Asking} {s s' : Session}

theorem Rule.run_bind {β : Type} (asking : Asking) (base : Nat) (p : Rule α) (k : α → Rule β) (s : Session) :
    (p >>= k).run asking base s = p.run asking base s >>= fun x => (k x.1).run asking base x.2 := by
  induction p generalizing s with
  | done | objection | fault => rfl
  | output t next ih | separation place next ih | subtraction next ih => exact ih _
  | reading next ih => exact ih _ _
  | question q r next ih =>
    show (asking q r s >>= fun x => ((next x.1) >>= k).run asking base x.2) =
      (asking q r s >>= fun x => (next x.1).run asking base x.2) >>= fun x => (k x.1).run asking base x.2
    cases asking q r s with
    | error => rfl
    | ok => exact ih _ _

theorem Rule.run_ask (asking : Asking) (base : Nat) (q : Question) (r : Ref) (s : Session) :
    (Rule.ask q r).run asking base s = asking q r s := by
  rw [ask, run_question]
  cases asking q r s <;> rfl

theorem Ask.answer_eq_ok {a : Ask α} {x : α} : a.answer = .ok x ↔ ∃ s, a {} = .ok (x, s) := by
  rw [Ask.answer, StateT.run'_eq, StateT.run]
  cases a {} with
  | error => exact ⟨fun h => (nomatch h), fun ⟨_, h⟩ => (nomatch h)⟩
  | ok y => exact ⟨fun h => ⟨y.2, by cases h; rfl⟩, fun ⟨_, h⟩ => by cases h; rfl⟩

theorem Ask.rendering_eq_ok {a : Ask Text} {x : Rendering} :
    a.rendering = .ok x ↔ ∃ t s, a {} = .ok (t, s) ∧ x = ⟨s.out, s.subtraction⟩ := by
  rw [Ask.rendering, bind_eq_ok]
  constructor
  · rintro ⟨⟨t, s⟩, h, hx⟩
    exact ⟨t, s, h, (Except.ok.inj hx).symm⟩
  · rintro ⟨t, s, h, rfl⟩
    exact ⟨(t, s), h, rfl⟩

/-! ### Where no quiet question is open -/

/-- Quiet questions are answered with what they mean, and the answers report what they should. -/
structure Asking.IsInformed (g : Graph) (asking : Asking) : Prop where
  attests : ∀ {q r a s s'}, s.Upholds g.Attests → asking q r s = .ok (a, s') → Answered g.Attests q r a s'
  learns : ∀ q r a s, q ≠ .text → g.Means q r a → s.Upholds g.Attests →
    ∃ s', asking q r s = .ok (a, s') ∧ s.Learns g s'

theorem Asking.IsInformed.of_quiet (h : asking.IsInformed g) {q : Question} {r : Ref} {a : q.Answer} (hq : q ≠ .text)
    (hs : s.Upholds g.Attests) (ha : asking q r s = .ok (a, s')) : g.Means q r a ∧ s.Learns g s' := by
  have hmeans := (Graph.attests_iff hq).1 (h.attests hs ha).1
  obtain ⟨s'', ha', hlearns⟩ := h.learns q r a s hq hmeans hs
  cases ha.symm.trans ha'
  exact ⟨hmeans, hlearns⟩

theorem Asking.IsInformed.run_learns (h : asking.IsInformed g) {p : Rule α} {a : α} (hp : p.Finds g.Means a)
    (base : Nat) (hs : s.Upholds g.Attests) : ∃ s', p.run asking base s = .ok (a, s') ∧ s.Learns g s' :=
  hp.run_learns h.learns base hs

/-- Only texts are open. -/
def Open.IsOfTexts (o : Open) : Prop := ∀ p ≠ .text, o p = []

theorem Open.isOfTexts_none : Open.none.IsOfTexts := fun _ _ => rfl

theorem Open.IsOfTexts.enter {o : Open} (h : o.IsOfTexts) (i : NodeId) : (o.enter .text i).IsOfTexts := fun p hp => by
  rw [enter_of_ne o hp]
  exact h p hp

namespace Graph

variable {g : Graph} {r : Ref}

/-- **Among open texts quiet questions are answered with what they mean.** -/
theorem asking_isInformed {o : Open} (ho : o.IsOfTexts) {d : Nat} (hd : g.unopened o < d) :
    (g.asking true d o).IsInformed g where
  attests hs h := (asking_upholds g.isUpheld_attests true d o _ _ _ hs).1 _ _ h
  learns _ _ _ _ hq := fun ⟨e, h⟩ hs => by
    refine asking_learns_of_meansAt e hq h (fun p hp j hj => ?_) hd hs
    rw [ho p hp] at hj
    cases hj

theorem questions_isInformed (g : Graph) : (g.questions true).IsInformed g :=
  asking_isInformed Open.isOfTexts_none (g.unopened_lt_depth _)

/-- **The answer to a quiet question is its meaning.** -/
theorem answer_eq_ok_iff {q : Question} (hq : q ≠ .text) {a : q.Answer} :
    (g.questions true q r).answer = .ok a ↔ g.Means q r a := by
  have hs := upholds_empty g.Attests
  rw [Ask.answer_eq_ok]
  constructor
  · rintro ⟨s, h⟩
    exact (g.questions_isInformed.of_quiet hq hs h).1
  · intro h
    obtain ⟨s, h, -⟩ := g.questions_isInformed.learns q r a _ hq h hs
    exact ⟨s, h⟩

/-- A core is found if it is what the question means. -/
theorem core_eq_ok_iff {u : Ref} : g.core r = .ok u ↔ g.Means .core r u := answer_eq_ok_iff (by decide)

theorem isEmpty_eq_ok_iff {b : Bool} : g.isEmpty r = .ok b ↔ g.Means .empty r b := answer_eq_ok_iff (by decide)

theorem isSingle_eq_ok_iff {c : Bool} : g.isSingle r = .ok c ↔ g.Means .single r c := answer_eq_ok_iff (by decide)

/-- **A pattern that is rendered is clear.** -/
theorem isClear_of_render {x : Rendering} (h : g.render r = .ok x) : g.IsClear r := by
  obtain ⟨t, s, hs, -⟩ := Ask.rendering_eq_ok.1 h
  exact (g.questions_isInformed.attests (upholds_empty _) hs).1

end Graph

/-! ### What is empty is written as nothing -/

/-- Texts that were kept of empty nodes are blank. -/
def Session.IsBlank (g : Graph) (s : Session) : Prop :=
  ∀ i t, s.texts.lookup i = some t → g.Means .empty (some i) true → t = []

/-- What holds of the texts that were kept and of a new one holds once that is kept too. -/
theorem Session.forall_texts_keep {P : NodeId → Text → Prop} (h : ∀ j t, s.texts.lookup j = some t → P j t) {i : NodeId}
    {a : Text} (ha : P i a) : ∀ j t, (s.keep .text i a).texts.lookup j = some t → P j t := by
  intro j t ht
  rw [show (s.keep .text i a).texts = (i, a) :: s.texts from rfl, lookup_cons] at ht
  split at ht
  · next hji =>
    cases ht
    exact LawfulBEq.eq_of_beq hji ▸ ha
  · exact h j t ht

/-- From `s` to `s'` nothing has been written. -/
structure Session.Passes (g : Graph) (s s' : Session) : Prop where
  out : s'.out = s.out
  subtraction : s'.subtraction = s.subtraction
  upholds : s'.Upholds g.Attests
  isBlank : s'.IsBlank g

theorem Session.Learns.passes (h : s.Learns g s') (hs : s.IsBlank g) : s.Passes g s' :=
  ⟨h.out, h.subtraction, h.upholds, fun i t ht => hs i t (h.texts ▸ ht)⟩

section

variable {g : Graph} {asking : Asking} {e : Nat} {i : NodeId} {n : Node}

/-- A leaf that is empty has a blank form. -/
theorem Leaf.form_of_isEmpty {l : Leaf} (h : l.isEmpty = true) : l.form = .ok [] := by
  cases l with
  | literal | raw | comment =>
    cases List.isEmpty_iff.1 h
    rfl
  | character | charClass | wildcard | anchor | backreference => cases h

/-- **An empty node writes nothing,** if empty nodes below it do so. -/
theorem Node.write_passes (hasking : asking.IsInformed g)
    (hwrite : ∀ r s, g.MeansAt e .empty r true → s.Upholds g.Attests → s.IsBlank g →
      ∃ s', asking .text r s = .ok ([], s') ∧ s.Passes g s')
    (hn : g.node? i = some n) (h : g.MeansAt (e + 1) .empty (some i) true) (base : Nat) {s : Session}
    (hs : s.Upholds g.Attests) (hblank : s.IsBlank g) :
    ∃ s', (n.write g i).run asking base s = .ok ((), s') ∧ s.Passes g s' := by
  have hdone : ∃ s', (pure () : Rule Unit).run asking base s = .ok ((), s') ∧ s.Passes g s' :=
    ⟨s, rfl, (Learns.refl hs).passes hblank⟩
  -- a node that asks whether it is empty itself
  have hself : ∀ contents, ∃ s', (do if ← Rule.ask .empty (some i) then return () else contents : Rule Unit).run
      asking base s = .ok ((), s') ∧ s.Passes g s' := by
    intro contents
    obtain ⟨s', hs', hlearns⟩ := hasking.learns .empty _ true s (by decide) ⟨e + 1, h⟩ hs
    refine ⟨s', ?_, hlearns.passes hblank⟩
    rw [run_bind, run_ask, hs']
    rfl
  have hchild : ∀ r, (Rule.ask .empty r).Finds (g.MeansAt e) true →
      ∃ s', (Rule.write r).run asking base s = .ok ((), s') ∧ s.Passes g s' := by
    intro r hr
    obtain ⟨s', hs', hpasses⟩ := hwrite r s ((finds_ask (by decide)).1 hr) hs hblank
    exact ⟨s', by rw [Rule.write, run_question, hs']; rfl, hpasses⟩
  obtain ⟨e', he, h⟩ := Graph.exists_findsAt_of_meansAt hn (by decide) h
  cases he
  cases n with
  | leaf l =>
    have hl : l.isEmpty = true := h
    refine ⟨s.write [], ?_, List.append_nil _, rfl, hs.of_kept (s.kept_write _), hblank⟩
    rw [Node.write, Leaf.form_of_isEmpty hl]
    rfl
  | set c =>
    have hc : (!c.hasBase && !c.hasSubtraction) = true := h
    rw [Bool.and_eq_true] at hc
    rw [Node.write, writeSet, if_pos hc.1, if_neg (by simpa using hc.2)]
    exact hdone
  | concat cs =>
    obtain ⟨rs, hrs, h⟩ := finds_bind.1 h
    cases List.isEmpty_iff.1 h
    have hrs : (nonEmpty cs).Finds g.Means [] := hrs.mono fun _ _ _ hb => ⟨e, hb⟩
    obtain ⟨s', hs', hlearns⟩ := hasking.run_learns hrs base hs
    refine ⟨s', ?_, hlearns.passes hblank⟩
    rw [Node.write, run_bind, hs']
    rfl
  | alternation cs =>
    cases cs with
    | nil => exact hdone
    | cons r rest =>
      cases rest with
      | nil =>
        obtain ⟨s', hs', hpasses⟩ := hchild r h
        refine ⟨s', ?_, hpasses⟩
        rw [Node.write, run_bind, hs']
        rfl
      | cons => cases h
  | quantified | enclosed | conditional | modified => exact hself _
  | group c => exact hchild c h

end

namespace Graph

variable {g : Graph}

/-- **An empty pattern is written as nothing,** if the emptiness of no text that is open is settled at the same
height. -/
theorem asking_blank : ∀ (e : Nat) {d : Nat} {o : Open} {r : Ref} {s : Session}, g.MeansAt e .empty r true →
    o.IsOfTexts → (∀ j ∈ o .text, ¬ g.Settled e .empty (some j)) → g.unopened o < d → s.Upholds g.Attests →
      s.IsBlank g → ∃ s', g.asking true d o .text r s = .ok ([], s') ∧ s.Passes g s'
  | 0, _, _, _, _, ⟨_, h⟩, _, _, _, _, _ => nomatch h
  | _ + 1, 0, _, _, _, _, _, _, hd, _, _ => absurd hd (Nat.not_lt_zero _)
  | e + 1, d + 1, o, r, s, ⟨fl, h⟩, ho, hopen, hd, hs, hblank => by
    have hopen' : ∀ j ∈ o .text, ¬ g.Settled e .empty (some j) := fun j hj hset =>
      hopen j hj (hset.mono (Nat.le_succ e))
    by_cases hset : g.Settled e .empty r
    · have h : g.MeansAt e .empty r true := ⟨fl, hset.meaning_eq_of_le (Nat.le_succ e) ▸ h⟩
      exact asking_blank e h ho hopen' hd hs hblank
    rcases g.absent_or_node r with hr | ⟨i, n, rfl, hn⟩
    · exact ⟨s, level_absent hr s, (Learns.refl hs).passes hblank⟩
    cases hk : (if true then (s.kept .text).lookup i else none) with
    | some t =>
      cases hblank i t hk ⟨e + 1, fl, h⟩
      refine ⟨s.write [], ?_, List.append_nil _, rfl, hs.of_kept (s.kept_write _), hblank⟩
      rw [asking, level_node hn]
      exact visit_kept hk
    | none =>
      have hi : i ∉ o .text := fun hi => hopen i hi (settled_of_eq_ok h)
      have hd' : g.unopened (o.enter .text i) < d :=
        Nat.lt_of_lt_of_le (unopened_enter_lt (lt_size_of_node? hn) hi) (Nat.le_of_lt_succ hd)
      have hopen'' : ∀ j ∈ o.enter .text i .text, ¬ g.Settled e .empty (some j) := by
        intro j hj
        rw [Open.enter_self, mem_append, mem_singleton] at hj
        rcases hj with hj | rfl
        · exact hopen' j hj
        · exact hset
      obtain ⟨s', hs', hpasses⟩ := Node.write_passes (asking_isInformed (ho.enter i) hd')
        (fun r' s' h' hs' hb' => asking_blank e h' (ho.enter i) hopen'' hd' hs' hb') hn ⟨fl, h⟩ s.out.length hs hblank
      have hrun : (n.rule g i .text).run (g.asking true d (o.enter .text i)) s.out.length s = .ok ([], s') := by
        rw [Node.rule, run_bind, hs']
        show Except.ok (s'.out.drop s.out.length, s') = _
        rw [hpasses.out, drop_length]
      have hask : g.asking true (d + 1) o .text (some i) s = .ok ([], s'.keep .text i []) := by
        rw [asking, level_node hn, visit_new hk hi, start_apply, hrun]
        rfl
      exact ⟨_, hask, hpasses.out, hpasses.subtraction, ((asking_isInformed ho hd).attests hs hask).2,
        forall_texts_keep hpasses.isBlank fun _ => rfl⟩

end Graph

/-! ### What is not empty is written as something -/

/-- A graph in which classes have a declared kind and members of sets are characters or classes. -/
structure Graph.IsDeclared (g : Graph) : Prop where
  kind : ∀ {i c code}, g.node? i = some (.leaf (.charClass c)) → c.kind ≠ .undeclared code
  member : ∀ {i s m}, g.node? i = some (.set s) → m ∈ s.members → g.memberForm? m ≠ none

/-- What is given away while a rule runs, and which patterns show it. -/
structure Signs where
  /-- The texts that nodes may write by themselves. -/
  admits : Text → Prop
  /-- The texts that give something away. -/
  tells : Text → Prop
  /-- The note of a subtraction gives something away. -/
  subtraction : Prop
  /-- The patterns that show something. -/
  shown : Ref → Prop

/-- What holds after a question, if `F` says whether something was given away before. -/
def Question.Notes (S : Signs) : Question → Ref → Prop → Prop
  | text, r, F => F ∨ S.shown r
  | core, _, F | empty, _, F | single, _, F => F

namespace Rule

/-- The rule writes only what it may, and ends in an answer and a proposition with `Q`: whether something is given away
then, if `F` says whether it is before. -/
def Notes {α : Type} (S : Signs) (g : Graph) (Q : α → Prop → Prop) : Rule α → Prop → Prop
  | done a, F => Q a F
  | objection _ _, _ | fault _, _ => True
  | output t next, F => S.admits t ∧ next.Notes S g Q (F ∨ S.tells t)
  | separation _ next, F => next.Notes S g Q F
  | reading next, F => ∀ t, (next t).Notes S g Q F
  | subtraction next, F => next.Notes S g Q (F ∨ S.subtraction)
  | question q r next, F => ∀ a, g.Attests q r a → (next a).Notes S g Q (q.Notes S r F)

variable {α β : Type} {S : Signs} {g : Graph} {Q : α → Prop → Prop} {R : β → Prop → Prop} {F : Prop}

namespace Notes

theorem bind {p : Rule α} {k : α → Rule β} (h : p.Notes S g Q F) (hk : ∀ a F', Q a F' → (k a).Notes S g R F') :
    (p >>= k).Notes S g R F := by
  induction p generalizing F with
  | done a => exact hk a F h
  | objection | fault => trivial
  | output t next ih => exact ⟨h.1, ih h.2⟩
  | reading next ih => exact fun t => ih t (h t)
  | separation place next ih | subtraction next ih => exact ih h
  | question q r next ih => exact fun a ha => ih a (h a ha)

theorem mono {p : Rule α} {Q' : α → Prop → Prop} (h : p.Notes S g Q F) (hQ : ∀ a F', Q a F' → Q' a F') :
    p.Notes S g Q' F := p.bind_done ▸ h.bind hQ

theorem ofResult {i : NodeId} {x : Except Objection α} :
    (Rule.ofResult i x).Notes S g (fun a F' => x = .ok a ∧ F' = F) F := by
  cases x with
  | error => trivial
  | ok => exact ⟨rfl, rfl⟩

end Notes

/-- **What was given away stays,** where all texts may be written. -/
theorem notes_of_imp (hS : ∀ t, S.admits t) {F₀ : Prop} (p : Rule α) {F : Prop} (hF : F₀ → F) :
    p.Notes S g (fun _ F' => F₀ → F') F := by
  induction p generalizing F with
  | done => exact hF
  | objection | fault => trivial
  | output t next ih => exact ⟨hS t, ih fun h => .inl (hF h)⟩
  | reading next ih => exact fun t => ih t hF
  | separation place next ih => exact ih hF
  | subtraction next ih => exact ih fun h => .inl (hF h)
  | question q r next ih =>
    refine fun a _ => ih a fun h => ?_
    cases q with
    | text => exact .inl (hF h)
    | core | empty | single => exact hF h

/-- A quiet rule gives nothing away, and finds its answer. -/
theorem Follows.notes {i : NodeId} {own : Question} {P : α → Prop} (hown : own ≠ .text) {p : Rule α}
    (hp : p.Follows g i own P) (F : Prop) : p.Notes S g (fun a F' => p.Finds g.Means a ∧ F' = F) F := by
  induction p with
  | done => exact ⟨rfl, rfl⟩
  | objection | fault => trivial
  | output | reading | separation | subtraction => exact absurd hp.1 hown
  | question q r next ih =>
    intro b hb
    have hq := hp.1.ne_text hown
    obtain ⟨e, fl, he⟩ := (Graph.attests_iff hq).1 hb
    have hnotes : q.Notes S r F = F := by
      cases q with
      | text => exact absurd rfl hq
      | core | empty | single => rfl
    rw [hnotes]
    refine (ih b (hp.2 b (Graph.sound_of_meaning_eq_ok e q r _ he))).mono fun a F' h => ⟨?_, h.2⟩
    exact ⟨hq, b, ⟨e, fl, he⟩, h.1⟩

/-- Whatever is done in a session behind the place `base`, `I` says whether something was given away in it. -/
structure IsNotedBy (S : Signs) (base : Nat) (I : Prop → Session → Prop) : Prop where
  write : ∀ {F s t}, I F s → S.admits t → I (F ∨ S.tells t) (s.write t)
  separate : ∀ {F s place}, I F s → base ≤ place → I F (s.separateEscape place)
  subtract : ∀ {F s}, I F s → I (F ∨ S.subtraction) { s with subtraction := true }

/-- **What a rule gives away is given away in a session.** -/
theorem Notes.run_ensures {base : Nat} {I : Prop → Session → Prop} (hI : IsNotedBy S base I) {asking : Asking}
    (hask : ∀ q r F, Ensures (I F) (asking q r) (fun a s => g.Attests q r a ∧ I (q.Notes S r F) s) fun _ => True)
    {p : Rule α} (h : p.Notes S g Q F) :
    Ensures (I F) (p.run asking base) (fun a s => ∃ F', Q a F' ∧ I F' s) fun _ => True := by
  induction p generalizing F with
  | done => exact .pure fun s hs => ⟨F, h, hs⟩
  | objection | fault => exact .throw trivial
  | output t next ih => exact fun s hs => ih h.2 _ (hI.write hs h.1)
  | reading next ih => exact fun s hs => ih _ (h (s.out.drop base)) s hs
  | separation place next ih => exact fun s hs => ih h _ (hI.separate hs (Nat.le_add_right _ _))
  | subtraction next ih => exact fun s hs => ih h _ (hI.subtract hs)
  | question q r next ih => exact (hask q r F).bind fun a s hs => ih a (h a hs.1) s hs.2

end Rule

/-- What is not blank gives away that something is not empty. -/
def Signs.voice (g : Graph) : Signs where
  admits _ := True
  tells t := t ≠ []
  subtraction := False
  shown := g.IsFilled

/-- The rule writes something if it did before or if `P` holds. -/
abbrev Rule.Voices (g : Graph) (p : Rule Unit) (P F : Prop) : Prop := p.Notes (.voice g) g (fun _ F' => F ∨ P → F') F

section

variable {g : Graph} {i : NodeId} {F : Prop}

/-- After a rule that ends in writing something, the output is not blank. -/
theorem notes_emit (p : Rule Unit) {t : Text} (ht : t ≠ []) :
    (do p; Rule.emit t : Rule Unit).Notes (.voice g) g (fun _ F' => F') F :=
  (p.notes_of_imp (fun _ => trivial) (show False → F from False.elim)).bind fun _ _ _ => ⟨trivial, .inr ht⟩

theorem writeBranch_voices (r : Ref) : (writeBranch g r).Voices g (g.IsFilled r) F := by
  intro u hu
  show (if isOpenAlternation g u then _ else Rule.write u : Rule Unit).Voices g _ F
  split
  · exact (notes_emit (do Rule.emit "(?:"; Rule.write u) (by decide)).mono fun _ _ h _ => h
  · intro _ hclear
    refine Or.imp_right fun hr => ?_
    obtain ⟨b, hb⟩ := hclear.empty
    obtain ⟨c, hc⟩ := hclear.single
    cases (Graph.means_of_core hu hb hc).1.unique hr
    exact hb

/-- What is written only if node `i` is not empty. -/
theorem unlessEmpty_voices {contents : Rule Unit}
    (h : g.IsFilled (some i) → contents.Voices g (g.IsFilled (some i)) F) :
    (do if ← Rule.ask .empty (some i) then return () else contents : Rule Unit).Voices g
      (g.IsFilled (some i)) F := by
  intro empty hempty
  cases empty with
  | true => exact fun h => h.elim id fun hi => nomatch Graph.Means.unique hempty hi
  | false => exact h hempty

theorem writeGroup_voices {opening : Text} {contents : Rule Unit} :
    (writeGroup i opening contents).Voices g (g.IsFilled (some i)) F :=
  unlessEmpty_voices fun _ => (notes_emit (do Rule.emit opening; contents) (by decide)).mono fun _ _ h _ => h

/-- A set is given away unless it is empty. -/
theorem writeSet_voices (hg : g.IsDeclared) {s : CharacterSet Ref} (hn : g.node? i = some (.set s)) :
    (writeSet g i s).Voices g (g.IsFilled (some i)) F := by
  unfold writeSet
  split
  · next hbase =>
    split
    · trivial
    · next hsub =>
      refine fun h => h.elim id fun hi => ?_
      have hempty : g.Means .empty (some i) true := by
        refine (Graph.means_node hn (by decide)).2 (show (!s.hasBase && !s.hasSubtraction) = true from ?_)
        rw [hbase, Bool.eq_false_iff.2 hsub]
        rfl
      exact nomatch hempty.unique hi
  · refine Notes.ofResult.bind ?_
    rintro ranges _ ⟨hranges, rfl⟩
    refine Notes.ofResult.bind ?_
    rintro subtracted _ ⟨-, rfl⟩
    split
    · next r hr =>
      have hr : g.IsFilled r := Graph.isFilled_of_memberForm?
        (CharacterSet.memberForm?_of_only? (fun _ hm => hg.member hn hm) hranges hr).2
      exact fun _ _ _ => .inr hr
    · refine Notes.ofResult.bind ?_
      rintro t _ ⟨ht, rfl⟩
      have hne : t ≠ [] := by
        obtain ⟨u, rfl⟩ := CharacterSet.exists_of_bracketed ht
        exact append_ne_nil_of_right_ne_nil _ (by decide)
      split
      · exact ⟨trivial, fun _ => .inr hne⟩
      · exact ⟨trivial, fun _ => .inr hne⟩

theorem writeQuantified_voices {b : Bounds} {c : Ref} (hn : g.node? i = some (.quantified b c)) :
    (writeQuantified g i b c).Voices g (g.IsFilled (some i)) F := by
  refine unlessEmpty_voices fun hi => ?_
  rintro u ⟨e, fl, hu⟩
  have hu : g.IsFilled u := hi.quantified hn hu
  show (writeRepeated g i b u).Voices g _ F
  unfold writeRepeated
  split
  · trivial
  · trivial
  · split
    · exact fun _ _ _ => .inr hu
    · exact (notes_emit (writeSingle u) b.suffix_ne_nil).mono fun _ _ h _ => h

/-- **A node writes something if it is not empty.** -/
theorem Node.write_voices (hg : g.IsDeclared) {n : Node} (hn : g.node? i = some n) :
    (n.write g i).Voices g (g.IsFilled (some i)) F := by
  -- a node that is empty need not write anything
  have hempty : (n.isEmpty g i).Finds g.Means true → (F ∨ g.IsFilled (some i) → F) := by
    intro h hF
    have h : g.Means .empty (some i) true := (Graph.means_node hn (by decide)).2 h
    exact hF.elim id fun hi => nomatch h.unique hi
  cases n with
  | leaf l =>
    refine Notes.ofResult.bind ?_
    rintro t _ ⟨ht, rfl⟩
    refine ⟨trivial, Or.imp_right fun hi => l.form_ne_nil ht (fun c code hc => hg.kind (hc ▸ hn)) ?_⟩
    exact (Graph.means_node hn (by decide)).1 hi
  | set => exact writeSet_voices hg hn
  | concat cs =>
    have hfollows : (nonEmpty cs).Follows g i .empty fun rs => ∀ r ∈ rs, g.Below i r :=
      nonEmpty_follows fun r hr => Graph.below_of_mem_refs hn hr
    refine (hfollows.notes (by decide) F).bind ?_
    rintro rs _ ⟨hrs, rfl⟩
    have hfilled := Graph.isFilled_of_mem_nonEmpty hrs
    match rs with
    | [] => exact hempty (finds_bind.2 ⟨[], hrs, rfl⟩)
    | [r] => exact fun _ _ _ => .inr (hfilled r (mem_singleton.2 rfl))
    | r :: r' :: rest =>
      refine (writeBranch_voices r).bind fun _ F' hF' => ?_
      refine (writeRest g (r' :: rest)).notes_of_imp (fun _ => trivial) fun _ => hF' (.inr ?_)
      exact hfilled r mem_cons_self
  | alternation cs =>
    match cs with
    | [] => exact hempty rfl
    | [r] => exact fun _ _ => Or.imp_right (·.child hn (.inl rfl))
    | r :: r' :: rest =>
      intro _ _
      have hbar : ("|" : Text) ≠ [] := by decide
      exact ⟨trivial, ((Rule.write r') >>= fun _ => writeBranches rest).notes_of_imp (fun _ => trivial) fun _ =>
        .inr hbar⟩
  | quantified => exact writeQuantified_voices hn
  | group => exact fun _ _ => Or.imp_right (·.child hn (.inr rfl))
  | enclosed | conditional | modified => exact writeGroup_voices

end

/-! ### Voiced sessions -/

/-- While the output is blank only empty texts were kept, and it is not blank if `F` holds. -/
structure Session.IsVoiced (g : Graph) (F : Prop) (s : Session) : Prop where
  upholds : s.Upholds g.Attests
  kept : s.out = [] → ∀ i t, s.texts.lookup i = some t → ¬ g.IsFilled (some i)
  out : F → s.out ≠ []

section

variable {g : Graph} {F : Prop} {s s' : Session}

theorem Session.isVoiced_empty (g : Graph) : ({} : Session).IsVoiced g False :=
  ⟨upholds_empty _, fun _ _ _ h => (nomatch h), False.elim⟩

/-- A session stays voiced while its output grows. -/
theorem Session.IsVoiced.of_out {F' : Prop} (h : s.IsVoiced g F) (hs' : s'.Upholds g.Attests)
    (htexts : s'.texts = s.texts) (hout : s'.out = [] → s.out = []) (hF' : F' → s'.out ≠ []) : s'.IsVoiced g F' :=
  ⟨hs', fun hnil i t ht => h.kept (hout hnil) i t (htexts ▸ ht), hF'⟩

theorem Session.isNotedBy_isVoiced (g : Graph) (base : Nat) :
    Rule.IsNotedBy (.voice g) base fun F s => s.IsVoiced g F where
  write {F s t} hs _ := by
    refine hs.of_out (hs.upholds.of_kept (s.kept_write t)) rfl (fun hnil => (append_eq_nil_iff.1 hnil).1) ?_
    rintro (hF | ht)
    · exact append_ne_nil_of_left_ne_nil (hs.out hF) t
    · exact append_ne_nil_of_right_ne_nil _ ht
  separate {F s place} hs _ := by
    refine hs.of_out (hs.upholds.of_kept (s.kept_separateEscape _)) rfl ?_ fun hF => separate_ne_nil (hs.out hF)
    exact fun hnil => by_contra fun hne => separate_ne_nil hne hnil
  subtract {F s} hs := hs.of_out (hs.upholds.of_kept (s.kept_subtraction true)) rfl id (Or.elim · hs.out False.elim)

namespace Graph

variable {q : Question} {i : NodeId}

/-- A text from the table is written. -/
theorem isVoiced_write {a : q.Answer} (hs : s.IsVoiced g F) (hk : (s.kept q).lookup i = some a) :
    (s.write (q.shown a)).IsVoiced g (q.Notes (.voice g) (some i) F) := by
  have hout : (s.write (q.shown a)).out = [] → s.out = [] := fun hnil => (append_eq_nil_iff.1 hnil).1
  refine hs.of_out (hs.upholds.of_kept (s.kept_write _)) rfl hout fun hF hnil => ?_
  cases q with
  | text => exact hF.elim (fun hF => hs.out hF (hout hnil)) fun hi => hs.kept (hout hnil) i a hk hi
  | core | empty | single => exact hs.out hF (hout hnil)

/-- What a rule tells of its question. -/
theorem rule_voices (hg : g.IsDeclared) {n : Node} (hn : g.node? i = some n) (q : Question) (F : Prop) :
    (n.rule g i q).Notes (.voice g) g (fun _ F' => q.Notes (.voice g) (some i) F → F') F := by
  cases q with
  | text => exact (Node.write_voices hg hn).bind fun _ _ h _ => h
  | core | empty | single => exact (n.rule g i _).notes_of_imp (fun _ => trivial) id

/-- An answer is kept with what was given away. -/
theorem isVoiced_keep {a : q.Answer} {F' : Prop} (hs : s.IsVoiced g F') (hF' : q.Notes (.voice g) (some i) F → F')
    (ha : g.Attests q (some i) a) : (s.keep q i a).IsVoiced g (q.Notes (.voice g) (some i) F) := by
  refine ⟨hs.upholds.keep ha, ?_, fun hF => ?_⟩
  · rw [out_keep]
    intro hnil
    cases q with
    | text => exact forall_texts_keep (hs.kept hnil) fun hi => hs.out (hF' (.inr hi)) hnil
    | core | empty | single => exact hs.kept hnil
  · rw [out_keep]
    exact hs.out (hF' hF)

/-- **The output is not blank once something has been written that is not empty.** -/
theorem asking_isVoiced (hg : g.IsDeclared) : ∀ (d : Nat) (o : Open) (q : Question) (r : Ref) (F : Prop),
    Ensures (·.IsVoiced g F) (g.asking true d o q r)
      (fun a s => g.Attests q r a ∧ s.IsVoiced g (q.Notes (.voice g) r F)) fun _ => True
  | 0, _, _, _, _ => .throw trivial
  | d + 1, o, q, r, F => by
    refine fun s hs => ⟨fun a s' h => ?_, fun _ _ => trivial⟩
    obtain ⟨hattests, -⟩ := (asking_upholds g.isUpheld_attests true (d + 1) o q r s hs.upholds).1 a s' h
    refine ⟨hattests, ?_⟩
    rcases asking_cases h with ⟨hr, rfl, rfl⟩ | ⟨i, n, rfl, hn, ⟨hk, rfl⟩ | ⟨s₁, hrun, rfl⟩⟩
    · refine ⟨hs.upholds, hs.kept, ?_⟩
      cases q with
      | text => exact fun hF => hs.out (hF.elim id fun hi => absurd hi (not_isFilled_of_deref? hr))
      | core | empty | single => exact hs.out
    · exact isVoiced_write hs hk
    · obtain ⟨F', hF', hs₁⟩ := ((rule_voices hg hn q F).run_ensures (isNotedBy_isVoiced g _)
        (asking_isVoiced hg d (o.enter q i)) s hs).1 a s₁ hrun
      exact isVoiced_keep hs₁ hF' hattests

end Graph

end

namespace Graph

variable {g : Graph}

/-- An empty pattern is rendered as nothing. -/
theorem render_of_means_empty {r : Ref} (h : g.Means .empty r true) : g.render r = .ok ⟨[], false⟩ := by
  obtain ⟨e, h⟩ := h
  obtain ⟨s, hs, hpasses⟩ := asking_blank e h Open.isOfTexts_none (fun _ hj => nomatch hj)
    (g.unopened_lt_depth _) (upholds_empty _) fun _ _ ht => nomatch ht
  exact Ask.rendering_eq_ok.2 ⟨[], s, hs, by rw [hpasses.out, hpasses.subtraction]⟩

/-- **Empty patterns are those that are written as nothing.** In a graph in which classes have a declared kind and the
members of sets are characters or classes: if a pattern is rendered, then it is known whether it is empty, and it is
empty exactly if its text is; and if it is known to be empty, then it is rendered, as nothing. -/
theorem isEmpty_iff_blank (hg : g.IsDeclared) (r : Ref) :
    (∀ x, g.render r = .ok x → g.isEmpty r = .ok (decide (x.text = []))) ∧
      (g.isEmpty r = .ok true → g.render r = .ok ⟨[], false⟩) := by
  refine ⟨fun x hx => ?_, fun h => render_of_means_empty (isEmpty_eq_ok_iff.1 h)⟩
  rw [isEmpty_eq_ok_iff]
  obtain ⟨b, hb⟩ := (isClear_of_render hx).empty
  cases b with
  | true =>
    cases hx.symm.trans (render_of_means_empty hb)
    exact hb
  | false =>
    obtain ⟨t, s, hs, rfl⟩ := Ask.rendering_eq_ok.1 hx
    have hvoiced := ((asking_isVoiced hg _ _ .text r False {} (isVoiced_empty g)).1 t s hs).2
    rw [decide_eq_false (hvoiced.out (.inr hb))]
    exact hb

/-- A lone backslash before a digit, written twice; two quantifiers of nothing; and a group that holds itself. -/
def strayBackslash : Graph :=
  ⟨#[.leaf (.raw "\\"), .leaf (.charClass ⟨.digit, []⟩), .set { members := [some 1] }, .leaf (.literal []),
    .concat [some 0, some 2, some 3, some 0], .quantified ⟨2, 5, true⟩ (some 3), .alternation [some 5],
    .group (some 7)]⟩

theorem isEmpty_iff_blank_strayBackslash :
    (strayBackslash.render (some 4) = .ok ⟨"\\\\d\\", false⟩ ∧ strayBackslash.isEmpty (some 4) = .ok false) ∧
      (strayBackslash.isEmpty (some 6) = .ok true ∧ strayBackslash.render (some 6) = .ok ⟨[], false⟩) ∧
      strayBackslash.isEmpty (some 7) = .error (.recursion .emptiness [7, 7]) := by
  have hdeclared : strayBackslash.IsDeclared := by
    refine ⟨fun {_ c _} h => ?_, fun {_ s m} h hm => ?_⟩
    · obtain rfl : c = ⟨.digit, []⟩ := by simpa [strayBackslash] using mem_nodes h
      exact nofun
    · obtain rfl : s = { members := [some 1] } := by simpa [strayBackslash] using mem_nodes h
      obtain rfl : m = some 1 := mem_singleton.1 hm
      decide
  have htext : strayBackslash.render (some 4) = .ok ⟨"\\\\d\\", false⟩ := by decide +kernel
  have hempty : strayBackslash.isEmpty (some 6) = .ok true := by decide +kernel
  exact ⟨⟨htext, (isEmpty_iff_blank hdeclared (some 4)).1 _ htext⟩,
    ⟨hempty, (isEmpty_iff_blank hdeclared (some 6)).2 hempty⟩, by decide +kernel⟩

end Graph
end RegexBuilder
