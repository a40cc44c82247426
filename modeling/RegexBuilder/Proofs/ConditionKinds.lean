/-
# Which kind of condition a text shows

A conditional writes its condition between `(?(` and `)`, be it the number or the name of a group or an expression, so
an expression such as the literal `1` is taken for a group (`Graph.expression_taken_for_group`).

What stands behind a parenthesis never looks back at it (`Graph.asking_isShifted`), so the condition has the text that
the expression has alone. The branches have the same text whatever the condition is, but only in tidy graphs: in
others a branch can take up the kept text of the expression.
-/

import RegexBuilder.Proofs.Faithful
import RegexBuilder.Proofs.Unwrapping

namespace RegexBuilder

open List Rule Session

/-! ### Behind a fixed text -/

/-- The text ends in a glyph that neither begins an escape nor belongs to a short one. -/
def Text.IsFenced (t : Text) : Prop := ∃ u c, t = u ++ [c] ∧ c ≠ .char '\\' ∧ c.isDigit = false

variable {pre : Text} {s : Session} {α : Type}

/-- Behind a fence digits are kept apart as at the beginning of an output. -/
theorem Session.separate_behind (hpre : pre.IsFenced) (place : Nat) (t : Text) :
    separate (pre.length + place) (pre ++ t) = pre ++ separate place t := by
  obtain ⟨u, c, rfl, hslash, hdigit⟩ := hpre
  cases place with
  | zero =>
    have hstart : separate 0 t = t := rfl
    rw [hstart, Nat.add_zero]
    unfold separate
    rw [take_left, reverse_append, reverse_singleton, singleton_append]
    split
    · next hbefore _ =>
      rw [← (List.cons.inj hbefore).1, hdigit]
      rfl
    · rfl
  | succ place =>
    refine separate_append ?_ (Nat.succ_pos place)
    exact Text.isComplete_append_of_not_mem u (cons_ne_nil c []) (by simpa using hslash.symm)

/-- The session with `pre` before its output. -/
def Session.behind (pre : Text) (s : Session) : Session := { s with out := pre ++ s.out }

theorem Session.write_behind (pre t : Text) (s : Session) : (s.behind pre).write t = (s.write t).behind pre := by
  rw [write, behind, append_assoc]
  rfl

theorem Session.eq_behind (h : s.out = pre) : s = Session.behind pre { s with out := [] } := by
  rw [behind, List.append_nil, ← h]

/-- What happens behind `pre` as it happens in `x`. -/
def Session.shifted {α : Type} (pre : Text) (x : Except Failure (α × Session)) : Except Failure (α × Session) :=
  x.map (Prod.map id (Session.behind pre))

theorem Session.exists_of_shifted {x : Except Failure (α × Session)} {a : α} (h : shifted pre x = .ok (a, s)) :
    ∃ t, x = .ok (a, t) ∧ s = t.behind pre := by
  cases x with
  | error => cases h
  | ok y =>
    cases h
    exact ⟨y.2, rfl, rfl⟩

/-- Questions are answered behind `pre` as they are without it. -/
def Asking.IsShifted (pre : Text) (asking : Asking) : Prop :=
  ∀ q r s, asking q r (s.behind pre) = Session.shifted pre (asking q r s)

/-- A rule does behind `pre` what it does without. -/
theorem Rule.run_behind (hpre : pre.IsFenced) {asking : Asking} (hask : asking.IsShifted pre) (p : Rule α) (base : Nat)
    (s : Session) : p.run asking (pre.length + base) (s.behind pre) = Session.shifted pre (p.run asking base s) := by
  induction p generalizing s with
  | done | objection | fault => rfl
  | output u next ih => rw [run_output, run_output, write_behind, ih]
  | reading next ih =>
    have hdrop : (s.behind pre).out.drop (pre.length + base) = s.out.drop base := drop_length_add_append ..
    rw [run_reading, run_reading, hdrop, ih]
  | separation place next ih =>
    have hseparate : (s.behind pre).separateEscape (pre.length + (base + place)) =
        (s.separateEscape (base + place)).behind pre := by
      rw [Session.separateEscape, Session.behind, separate_behind hpre]
      rfl
    rw [run_separation, run_separation, Nat.add_assoc, hseparate, ih]
  | subtraction next ih => exact ih { s with subtraction := true }
  | question q r next ih =>
    rw [run_question, run_question, hask]
    cases asking q r s with
    | error => rfl
    | ok x => exact ih x.1 x.2

/-- **What is written behind a fence is written as if nothing stood there,** in every graph. -/
theorem Graph.asking_isShifted (hpre : pre.IsFenced) (g : Graph) (keep : Bool) :
    ∀ (d : Nat) (o : Open), (g.asking keep d o).IsShifted pre
  | 0, _ => fun _ _ _ => rfl
  | d + 1, o => by
    intro q r s
    rw [asking]
    rcases g.absent_or_node r with hr | ⟨i, n, rfl, hn⟩
    · rw [level_absent hr, level_absent hr]
      rfl
    · rw [level_node hn]
      have hkept : (s.behind pre).kept q = s.kept q := by cases q <;> rfl
      cases hk : (if keep then (s.kept q).lookup i else none) with
      | some =>
        rw [visit_kept hk, visit_kept (hkept ▸ hk), write_behind]
        rfl
      | none =>
        by_cases hi : i ∈ o q
        · rw [visit_open hk hi, visit_open (hkept ▸ hk) hi]
          rfl
        · have hlength : (s.behind pre).out.length = pre.length + s.out.length := length_append
          rw [visit_new hk hi, visit_new (hkept ▸ hk) hi, start_apply, start_apply, hlength,
            run_behind hpre (g.asking_isShifted hpre keep d _)]
          cases (n.rule g i q).run (g.asking keep d (o.enter q i)) s.out.length s with
          | error => rfl
          | ok => cases keep <;> cases q <;> rfl

/-! ### Plain rules -/

namespace Rule

/-- The rule writes and asks, and does nothing else. -/
def IsPlain {α : Type} : Rule α → Prop
  | done _ | objection _ _ | fault _ => True
  | output _ next => next.IsPlain
  | question _ _ next => ∀ a, (next a).IsPlain
  | reading _ | separation _ _ | subtraction _ => False

variable {α β : Type}

theorem IsPlain.bind {p : Rule α} {k : α → Rule β} (h : p.IsPlain) (hk : ∀ a, (k a).IsPlain) : (p >>= k).IsPlain := by
  induction p with
  | done a => exact hk a
  | objection | fault => trivial
  | output t next ih => exact ih h
  | question q r next ih => exact fun a => ih a (h a)
  | reading | separation | subtraction => exact h.elim

theorem isPlain_emit (t : Text) : (emit t).IsPlain := trivial

theorem isPlain_ask (q : Question) (r : Ref) : (ask q r).IsPlain := fun _ => trivial

theorem isPlain_write (r : Ref) : (write r).IsPlain := fun _ => trivial

/-- Where its text begins is nothing to a plain rule. -/
theorem IsPlain.run_eq {p : Rule α} (h : p.IsPlain) (asking : Asking) (base base' : Nat) (s : Session) :
    p.run asking base s = p.run asking base' s := by
  induction p generalizing s with
  | done | objection | fault => rfl
  | output t next ih => exact ih h _
  | question q r next ih =>
    rw [run_question, run_question]
    exact congrArg _ (funext fun x => ih x.1 (h x.1) x.2)
  | reading | separation | subtraction => exact h.elim

/-- **A plain rule adds the same to every draft.** -/
theorem IsPlain.eval_append {A : Oracle} {p : Rule α} (h : p.IsPlain) {a : α} {dr dr' : Draft}
    (heval : p.eval A dr = .ok (a, dr')) (dr₁ : Draft) :
    ∃ t dr₁', dr'.text = dr.text ++ t ∧ p.eval A dr₁ = .ok (a, dr₁') ∧ dr₁'.text = dr₁.text ++ t := by
  induction p generalizing dr dr₁ with
  | done =>
    cases heval
    exact ⟨[], dr₁, (List.append_nil _).symm, rfl, (List.append_nil _).symm⟩
  | objection | fault => cases heval
  | output u next ih =>
    obtain ⟨t, dr₁', ht, heval₁, ht₁⟩ := ih h heval (dr₁.write u)
    exact ⟨u ++ t, dr₁', ht.trans (append_assoc ..), heval₁, ht₁.trans (append_assoc ..)⟩
  | question q r next ih =>
    obtain ⟨x, hx, heval⟩ := bind_eq_ok.1 heval
    obtain ⟨t, dr₁', ht, heval₁, ht₁⟩ := ih x.1 (h x.1) heval (dr₁.answered x)
    refine ⟨q.shown x.1 ++ t, dr₁', ht.trans (append_assoc ..), ?_, ht₁.trans (append_assoc ..)⟩
    rw [eval, hx]
    exact heval₁
  | reading | separation | subtraction => exact h.elim

end Rule

/-! ### The parts of a conditional -/

/-- Writes the branches of a conditional. -/
def writeOutcome (g : Graph) (yes no : Ref) : Rule Unit := do
  writeBranch g yes
  if ← Rule.ask .empty no then
    return ()
  else
    Rule.emit "|"
    writeBranch g no

theorem isPlain_writeBranch (g : Graph) (r : Ref) : (writeBranch g r).IsPlain := by
  refine (isPlain_ask .core r).bind fun u => ?_
  split
  · exact (isPlain_emit _).bind fun _ => (isPlain_write u).bind fun _ => isPlain_emit _
  · exact isPlain_write u

theorem isPlain_writeOutcome (g : Graph) (yes no : Ref) : (writeOutcome g yes no).IsPlain := by
  refine (isPlain_writeBranch g yes).bind fun _ => (isPlain_ask .empty no).bind fun empty => ?_
  split
  · trivial
  · exact (isPlain_emit _).bind fun _ => isPlain_writeBranch g no

/-- What stands for the condition of a conditional with the given expression. -/
def Graph.ShowsCondition (g : Graph) (c : Condition) (expression : Ref) (t : Text) : Prop :=
  match c.kind with
  | .groupNumber | .groupName => t = c.test
  | .expression => ∃ z, g.render expression = .ok z ∧ t = z.text
  | .undeclared _ => False

section

variable {g : Graph} {i : NodeId} {c : Condition} {e yes no : Ref} {d : Nat} {o : Open} {s s' : Session}

/-- A pattern that is written behind a fence, before any other text, is written as it is rendered. -/
theorem Graph.render_of_asking_behind {pre : Text} (hpre : pre.IsFenced) (ho : o.IsOfTexts) (hd : g.unopened o < d)
    (hs : (Session.behind pre {}).Learns g s) {a : Text} (h : g.asking true d o .text e s = .ok (a, s')) :
    ∃ z, g.render e = .ok z ∧ s'.out = pre ++ z.text := by
  have hout : s.out = pre := hs.out.trans (List.append_nil pre)
  rw [eq_behind hout, g.asking_isShifted hpre] at h
  obtain ⟨t, ht, rfl⟩ := exists_of_shifted h
  have hlearns : ({} : Session).Learns g { s with out := [] } :=
    ⟨rfl, hs.subtraction, hs.texts, hs.upholds.of_kept fun q => by cases q <;> rfl⟩
  exact ⟨_, render_of_asking ho hd hlearns ht, rfl⟩

/-- The condition is written as it is shown. -/
theorem writeCondition_shows (ho : o.IsOfTexts) (hd : g.unopened o < d) {base : Nat}
    (hs : (Session.behind "(?(" {}).Learns g s)
    (h : (writeCondition i c e).run (g.asking true d o) base s = .ok ((), s')) :
    ∃ t, g.ShowsCondition c e t ∧ s'.out = "(?(" ++ t := by
  have hemit : ∀ t, (Rule.emit t).run (g.asking true d o) base s = .ok ((), s') → s'.out = "(?(" ++ t := by
    intro t h
    cases h
    exact congrArg (· ++ t) hs.out
  unfold writeCondition at h
  unfold Graph.ShowsCondition
  cases hkind : c.kind with
  | groupNumber | groupName =>
    simp only [hkind] at h ⊢
    split at h
    · cases h
    · exact ⟨c.test, rfl, hemit _ (by rw [Condition.test, hkind]; exact h)⟩
  | expression =>
    simp only [hkind] at h ⊢
    rw [run_bind, run_ask] at h
    obtain ⟨⟨empty, s₁⟩, hempty, h⟩ := bind_eq_ok.1 h
    obtain ⟨-, hlearns⟩ := (Graph.asking_isInformed ho hd).of_quiet (by decide) hs.upholds hempty
    cases empty with
    | true => cases h
    | false =>
      obtain ⟨⟨a, s₂⟩, ha, h⟩ := bind_eq_ok.1 h
      cases h
      obtain ⟨z, hz, hout⟩ := Graph.render_of_asking_behind ⟨"(?", .char '(', rfl, by decide, by decide⟩ ho hd
        (hs.trans hlearns) ha
      exact ⟨z.text, ⟨z, hz, rfl⟩, hout⟩
  | undeclared =>
    simp only [hkind] at h
    cases h

/-- The condition stands between parentheses, and what follows leaves it alone. -/
theorem writeConditional_shows (ho : o.IsOfTexts) (hd : g.unopened o < d) {base : Nat}
    (hs : (Session.behind "(?(" {}).Learns g s)
    (h : (writeConditional g i c e yes no).run (g.asking true d o) base s = .ok ((), s')) :
    ∃ t rest, g.ShowsCondition c e t ∧ s'.out = "(?(" ++ t ++ ")" ++ rest := by
  rw [writeConditional, run_bind] at h
  obtain ⟨⟨⟨⟩, s₁⟩, hcondition, h⟩ := bind_eq_ok.1 h
  obtain ⟨t, ht, hout⟩ := writeCondition_shows ho hd hs hcondition
  rw [run_bind] at h
  obtain ⟨⟨⟨⟩, s₂⟩, hclose, h⟩ := bind_eq_ok.1 h
  cases hclose
  have hfenced : ("(?(" ++ t ++ ")" : Text).IsFenced := ⟨_, .char ')', rfl, by decide, by decide⟩
  have hout : (s₁.write ")").out = "(?(" ++ t ++ ")" := congrArg (· ++ Text.ofString ")") hout
  -- the branches are written by a plain rule, which might as well begin here
  have houtcome : (writeOutcome g yes no).run (g.asking true d o) base (s₁.write ")") = .ok ((), s') := h
  rw [(isPlain_writeOutcome g yes no).run_eq _ base (List.length ("(?(" ++ t ++ ")" : Text) + 0),
    eq_behind hout, run_behind hfenced (g.asking_isShifted hfenced true d o)] at houtcome
  obtain ⟨u, -, rfl⟩ := exists_of_shifted houtcome
  exact ⟨t, u.out, ht, rfl⟩

namespace Graph

/-- A conditional is empty exactly if both branches are. -/
theorem means_empty_conditional (hn : g.node? i = some (.conditional c e yes no)) :
    g.Means .empty (some i) true ↔ g.Means .empty yes true ∧ g.Means .empty no true := by
  have hask : ∀ {r : Ref} {b : Bool}, (Rule.ask .empty r).Finds g.Means b ↔ g.Means .empty r b :=
    finds_ask (by decide)
  rw [means_node hn (by decide), Node.rule, Node.isEmpty, finds_bind]
  constructor
  · rintro ⟨b, hb, h⟩
    cases b with
    | true => exact ⟨hask.1 hb, hask.1 h⟩
    | false => cases h
  · rintro ⟨hyes, hno⟩
    exact ⟨true, hask.2 hyes, hask.2 hno⟩

variable {x : Rendering} {h : Nat}

/-- **A conditional has the text of its condition between parentheses,** in every graph. -/
theorem exists_text_of_conditional (hn : g.node? i = some (.conditional c e yes no))
    (hfilled : ¬ g.Means .empty (some i) true) (h : g.render (some i) = .ok x) :
    ∃ t rest, g.ShowsCondition c e t ∧ x.text = "(?(" ++ t ++ ")" ++ rest := by
  obtain ⟨d, o, s, ho, hd, hwrite, rfl⟩ := exists_write_of_render hn h
  rw [Node.write, writeGroup, run_bind, run_ask] at hwrite
  obtain ⟨⟨empty, s₁⟩, hempty, hwrite⟩ := bind_eq_ok.1 hwrite
  obtain ⟨hmeans, hlearns⟩ := (asking_isInformed ho hd).of_quiet (by decide) (upholds_empty _) hempty
  cases empty with
  | true => exact absurd hmeans hfilled
  | false =>
    rw [if_neg Bool.false_ne_true, run_bind] at hwrite
    obtain ⟨⟨⟨⟩, s₂⟩, hopening, hwrite⟩ := bind_eq_ok.1 hwrite
    cases hopening
    rw [run_bind] at hwrite
    obtain ⟨⟨⟨⟩, s₃⟩, hcontents, hclose⟩ := bind_eq_ok.1 hwrite
    cases hclose
    obtain ⟨t, rest, ht, hout⟩ := writeConditional_shows ho hd (hlearns.write "(?(") hcontents
    refine ⟨t, rest ++ ")", ht, ?_⟩
    rw [← append_assoc, ← hout]
    rfl

/-! ### The branches in tidy graphs -/

/-- A node of a tidy graph has the text that its rule means. -/
theorem exists_eval_of_render (hg : g.IsTidy) {n : Node} (hn : g.node? i = some n) (h : g.render (some i) = .ok x) :
    ∃ dr, (n.write g i).eval (g.meaning (4 * g.size)) {} = .ok ((), dr) ∧ x.text = dr.text := by
  rw [render_eq_told hg] at h
  obtain ⟨⟨t, fl⟩, htold, hx⟩ := bind_eq_ok.1 h
  cases hx
  obtain ⟨e, dr, he, heval⟩ := exists_eval_of_meaning hn (meaning_of_told_eq_ok htold)
  cases he
  rw [Node.rule, eval_bind] at heval
  obtain ⟨⟨⟨⟩, dr'⟩, hwrite, hread⟩ := bind_eq_ok.1 heval
  cases hread
  exact ⟨dr', hwrite, rfl⟩

theorem eval_condition (hg : g.IsTidy) {dr dr' : Draft}
    (heval : (writeCondition i c e).eval (g.meaning h) dr = .ok ((), dr')) :
    ∃ t, g.ShowsCondition c e t ∧ dr'.text = dr.text ++ t := by
  unfold ShowsCondition
  cases hkind : c.kind with
  | groupNumber =>
    obtain ⟨t, ht, rfl, -⟩ := writeTest_adds (.inl hkind) dr _ _ heval
    exact ⟨_, rfl, ht⟩
  | groupName =>
    obtain ⟨t, ht, rfl, -⟩ := writeTest_adds (.inr hkind) dr _ _ heval
    exact ⟨_, rfl, ht⟩
  | expression =>
    simp only [writeCondition, hkind] at heval
    obtain ⟨⟨empty, fl⟩, hempty, heval⟩ := bind_eq_ok.1 heval
    cases empty with
    | true => cases heval
    | false =>
      obtain ⟨⟨t, fl'⟩, ht, heval⟩ := bind_eq_ok.1 heval
      cases heval
      refine ⟨t, ⟨_, render_of_meaning hg ht, rfl⟩, ?_⟩
      rw [Draft.answered, Draft.text_answered _ (by decide)]
      rfl
  | undeclared =>
    simp only [writeCondition, hkind] at heval
    cases heval

/-- **Behind the condition, a conditional of a tidy graph has the text of its branches,** whatever the condition is. -/
theorem exists_outcome_of_conditional (hg : g.IsTidy) (hn : g.node? i = some (.conditional c e yes no))
    (hfilled : ¬ g.Means .empty (some i) true) (h : g.render (some i) = .ok x) :
    ∃ t dr, g.ShowsCondition c e t ∧ (writeOutcome g yes no).eval (g.meaning (4 * g.size)) {} = .ok ((), dr) ∧
      x.text = "(?(" ++ t ++ ")" ++ dr.text ++ ")" := by
  obtain ⟨dr, heval, hx⟩ := exists_eval_of_render hg hn h
  obtain ⟨⟨empty, fl⟩, hmeans, heval⟩ := bind_eq_ok.1 heval
  cases empty with
  | true => exact absurd ⟨_, fl, hmeans⟩ hfilled
  | false =>
    have heval : (do Rule.emit "(?("; writeConditional g i c e yes no; Rule.emit ")" : Rule Unit).eval
        (g.meaning (4 * g.size)) (Draft.answered (q := .empty) (false, fl) {}) = .ok ((), dr) := heval
    rw [eval_bind] at heval
    obtain ⟨⟨⟨⟩, dr₂⟩, hopening, heval⟩ := bind_eq_ok.1 heval
    cases hopening
    rw [eval_bind, writeConditional, eval_bind] at heval
    obtain ⟨⟨⟨⟩, dr₃⟩, hcontents, hclose⟩ := bind_eq_ok.1 heval
    obtain ⟨⟨⟨⟩, dr₄⟩, hcondition, hcontents⟩ := bind_eq_ok.1 hcontents
    cases hclose
    obtain ⟨t, ht, htext⟩ := eval_condition hg hcondition
    have houtcome : (writeOutcome g yes no).eval (g.meaning (4 * g.size)) (dr₄.write ")") = .ok ((), dr₃) := hcontents
    obtain ⟨u, dr₅, hu, heval, hdr₅⟩ := (isPlain_writeOutcome g yes no).eval_append houtcome {}
    refine ⟨t, dr₅, ht, heval, ?_⟩
    have hdr₄ : dr₄.text = "(?(" ++ t := htext
    have hdr₃ : dr₃.text = "(?(" ++ t ++ ")" ++ u := by rw [hu, Draft.write, hdr₄]
    rw [hx, hdr₅, Draft.write, hdr₃]
    rfl

end Graph

/-! ### Expressions and groups -/

/-- The condition is that a group has matched, which is given by its number or by a valid name. -/
def Condition.IsGroupTest (c : Condition) : Prop :=
  c.kind = .groupNumber ∨ ∃ name, Condition.checkedName name = .ok c

theorem Condition.of_checkedName {name : Text} (h : checkedName name = .ok c) :
    checkName .name name = .ok () ∧ c = { kind := .groupName, name := name } := by
  unfold checkedName at h
  cases hok : checkName .name name with
  | error =>
    rw [hok] at h
    cases h
  | ok =>
    rw [hok] at h
    exact ⟨rfl, (Except.ok.inj h).symm⟩

theorem Condition.IsGroupTest.eq_test {t : Text} (hc : c.IsGroupTest) (h : g.ShowsCondition c e t) : t = c.test := by
  unfold Graph.ShowsCondition at h
  rcases hc with hkind | ⟨name, hname⟩
  · rw [hkind] at h
    exact h
  · obtain ⟨-, rfl⟩ := Condition.of_checkedName hname
    exact h

theorem Condition.IsGroupTest.not_mem_test (hc : c.IsGroupTest) : .char ')' ∉ c.test := by
  rcases hc with hkind | ⟨name, hname⟩
  · rw [test, hkind]
    exact Text.not_mem_ofInt rfl (by decide) _
  · obtain ⟨hok, rfl⟩ := Condition.of_checkedName hname
    exact not_mem_of_forall (isNameGlyph_of_mem hok) (isNameGlyph_eq_false _ (by decide))

/-- A text without parentheses ends where the first one closes, or what stands there begins with both. -/
theorem eq_or_prefix_of_append_eq {t u rest rest' : Text} (hu : .char ')' ∉ u)
    (h : t ++ (Glyph.char ')' :: rest) = u ++ (Glyph.char ')' :: rest')) : t = u ∨ (u ++ ")" : Text) <+: t := by
  rcases append_eq_append_iff.1 h with ⟨v, rfl, hv⟩ | ⟨v, rfl, hv⟩
  · cases v with
    | nil => exact .inl (List.append_nil t).symm
    | cons =>
      cases hv
      exact absurd (mem_append_right t mem_cons_self) hu
  · cases v with
    | nil => exact .inl (List.append_nil u)
    | cons a v =>
      cases hv
      exact .inr ⟨v, append_assoc ..⟩

namespace Graph

/-- The set of the digit `7` once as a condition, and the groups 7 and `x7` as conditions. -/
def digitCondition : Graph :=
  ⟨#[.leaf (.character (.plain 55)), .set { members := [some 0] }, .quantified ⟨1, 1, true⟩ (some 1),
    .leaf (.literal "a"), .leaf (.literal "b"),
    .conditional { kind := .expression } (some 2) (some 3) (some 4),
    .conditional { kind := .groupNumber, group := 7 } none (some 3) (some 4),
    .conditional { kind := .groupName, name := "x7" } none (some 3) (some 4)]⟩

/-- The literals `1` and `x` as conditions, and the groups 1 and `x`. -/
def literalConditions : Graph :=
  ⟨#[.leaf (.literal "1"), .leaf (.literal "x"), .leaf (.literal "a"), .leaf (.literal "b"),
    .conditional { kind := .expression } (some 0) (some 2) (some 3),
    .conditional { kind := .groupNumber, group := 1 } none (some 2) (some 3),
    .conditional { kind := .expression } (some 1) (some 2) (some 3),
    .conditional { kind := .groupName, name := "x" } none (some 2) (some 3)]⟩

end Graph
end

end RegexBuilder
