/-
# The ways to an engine agree

A pattern meets an engine in four ways: it is compiled with `regexp2`, it is compiled with `coregex`, it is
analysed, and it gets an entry in a generated file. Each is open for an engine exactly if the engine *takes* the
rendering (`Acceptance.Takes`): it accepts the text and reads it as it is meant (`Graph.gates_agree`).
-/

import RegexBuilder.Generate.Generator
import RegexBuilder.Proofs.Outcome

namespace RegexBuilder

open Engine List

/-! ### Engines and their names -/

/-- The name leads back to the engine. -/
theorem Engine.ofName?_eq_some {name : Text} {e : Engine} : ofName? name = some e ↔ e.name = name := by
  constructor
  · intro h
    simpa using find?_some h
  · rintro rfl
    exact ofName?_name e

/-- Engines have different names. -/
theorem Engine.name_injective {e e' : Engine} (h : e.name = e'.name) : e = e' := by
  have hname : ofName? e.name = some e' := h ▸ ofName?_name e'
  exact Option.some.inj ((ofName?_name e).symm.trans hname)

/-! ### What an engine takes -/

namespace Acceptance

variable {accepts : Acceptance} {e : Engine} {x : Rendering} {name : Text}

/-- The engine accepts the text of the rendering and reads it as it is meant. -/
def Takes (accepts : Acceptance) (e : Engine) (x : Rendering) : Prop :=
  accepts e x.text = true ∧ (e ≠ .regexp2 → x.subtraction = false)

/-- A rendering passes the check of an engine exactly if the engine takes it. -/
theorem check_name_eq_ok : accepts.check e.name x = .ok () ↔ accepts.Takes e x := by
  unfold check verify Takes
  rw [ofName?_name]
  by_cases he : e = .regexp2
  · subst he
    simp
  · have hname : e.name ≠ Engine.regexp2.name := fun h => he (name_injective h)
    cases hsub : x.subtraction <;> simp [he, hname]

/-- **A rendering passes the check of a name exactly if the engine of the name takes it.** -/
theorem check_eq_ok : accepts.check name x = .ok () ↔ ∃ e, e.name = name ∧ accepts.Takes e x := by
  constructor
  · intro h
    have hverify : accepts.verify name x.text = .ok () := by
      unfold check at h
      split at h
      · cases h
      · exact h
    cases hname : Engine.ofName? name with
    | none => simp [verify, hname] at hverify
    | some e =>
      obtain rfl := ofName?_eq_some.1 hname
      exact ⟨e, rfl, check_name_eq_ok.1 h⟩
  · rintro ⟨e, rfl, h⟩
    exact check_name_eq_ok.2 h

end Acceptance

/-! ### The four ways -/

namespace Graph

variable {g : Graph} {accepts : Acceptance} {r : Ref} {x : Rendering} {f : Failure}

theorem source_eq_ok (h : g.render r = .ok x) : g.source r = .ok x := by
  rw [source, h]
  rfl

theorem source_eq_error (h : g.render r = .error f) : g.source r = .error (.pattern f) := by
  rw [source, h]
  rfl

section

variable (h : g.render r = .ok x)

include h

theorem compile_eq (options timeout : Int) :
    g.compile accepts r options timeout =
      if accepts .regexp2 x.text then
        .ok ⟨x.text, options, if 0 < timeout then some timeout else none⟩
      else .error (.refused x.text) := by
  rw [compile, source_eq_ok h]
  rfl

theorem compileLinear_eq :
    g.compileLinear accepts r =
      if x.subtraction then .error (.misread x.text)
      else if accepts .coregex x.text then .ok x.text
      else .error (.refused x.text) := by
  rw [compileLinear, source_eq_ok h]
  rfl

/-- The pattern is compiled exactly if `regexp2` takes its rendering. -/
theorem compile_eq_ok (options timeout : Int) :
    (∃ y, g.compile accepts r options timeout = .ok y) ↔ accepts.Takes .regexp2 x := by
  rw [compile_eq h, Acceptance.Takes]
  cases accepts .regexp2 x.text <;> simp

/-- The pattern is compiled for linear time exactly if `coregex` takes its rendering. -/
theorem compileLinear_eq_ok : (∃ y, g.compileLinear accepts r = .ok y) ↔ accepts.Takes .coregex x := by
  rw [compileLinear_eq h, Acceptance.Takes]
  cases x.subtraction <;> cases accepts .coregex x.text <;> simp

theorem compileLinear_eq_misread :
    (∃ source, g.compileLinear accepts r = .error (.misread source)) ↔ x.subtraction = true := by
  rw [compileLinear_eq h]
  cases x.subtraction <;> cases accepts .coregex x.text <;> simp

end

/-- What one engine changes in the analysis. -/
theorem ask_spec (accepts : Acceptance) (x : Rendering) (a : Analysis) (e : Engine) :
    (∀ e', e' ∈ (a.ask accepts x e).engines ↔ e' ∈ a.engines ∨ e' = e ∧ accepts.Takes e' x) ∧
      ((a.ask accepts x e).linear = true ↔ a.linear = true ∧ (e ≠ .regexp2 → accepts.Takes e x)) := by
  have htakes : accepts.check e.name x = .ok () ↔ accepts.Takes e x := Acceptance.check_name_eq_ok
  unfold Analysis.ask
  split <;> grind

/-- Asking the engines one by one lists those that take the rendering. -/
theorem foldl_ask (accepts : Acceptance) (x : Rendering) : ∀ (es : List Engine) (a : Analysis),
    (∀ e, e ∈ (es.foldl (.ask accepts x) a).engines ↔ e ∈ a.engines ∨ e ∈ es ∧ accepts.Takes e x) ∧
      ((es.foldl (.ask accepts x) a).linear = true ↔
        a.linear = true ∧ ∀ e ∈ es, e ≠ .regexp2 → accepts.Takes e x)
  | [], a => by simp
  | e :: es, a => by
    obtain ⟨hengines, hlinear⟩ := foldl_ask accepts x es (a.ask accepts x e)
    obtain ⟨hengine, hstep⟩ := ask_spec accepts x a e
    rw [foldl_cons, hlinear, hstep, forall_mem_cons, and_assoc]
    refine ⟨fun e' => ?_, Iff.rfl⟩
    rw [hengines, hengine, mem_cons, or_assoc, or_and_right]

/-- The analysis lists the engines that take the rendering. -/
theorem exists_analyze_eq_ok (accepts : Acceptance) (h : g.render r = .ok x) :
    ∃ a, g.analyze accepts r = .ok a ∧ (∀ e, e ∈ a.engines ↔ accepts.Takes e x) ∧
      (a.linear = true ↔ accepts.Takes .regexp x ∧ accepts.Takes .coregex x) := by
  obtain ⟨hengines, hlinear⟩ := foldl_ask accepts x Engine.all ⟨x.text, [], true⟩
  refine ⟨_, bind_eq_ok.2 ⟨x, h, rfl⟩, fun e => ?_, ?_⟩
  · have he : e ∈ Engine.all := by cases e <;> decide
    simp [hengines, he]
  · rw [hlinear]
    simp [Engine.all]

/-- The definition stands for the pattern: it refers to the same node, or neither of them refers to
one. -/
def StandsFor (g : Graph) (d : Description.NamedPattern) (r : Ref) : Prop :=
  some d.node = r ∨ g.deref? (some d.node) = none ∧ g.deref? r = none

theorem StandsFor.render_eq {d : Description.NamedPattern} (h : g.StandsFor d r) :
    g.render (some d.node) = g.render r := by
  rcases h with rfl | ⟨hnode, habsent⟩
  · rfl
  · have hask : g.questions true .text (some d.node) = g.questions true .text r := by
      funext s
      exact (level_absent hnode s).trans (level_absent habsent s).symm
    rw [render, render, hask]

end Graph

namespace Generate

variable {g : Graph} {accepts : Acceptance} {d : Description.NamedPattern} {x : Rendering} {f : Failure}
  {engine : Text} {owners : Owners}

/-- The variable and the constant of a definition have different names. -/
theorem patternConstant_ne_identifier (name : Text) : patternConstant name ≠ identifier name := by
  intro h
  have hlength := congrArg List.length h
  rw [patternConstant, length_append] at hlength
  have hsuffix : (Text.ofString "Pattern").length = 7 := rfl
  omega

theorem entries_singleton_eq_ok (h : g.render (some d.node) = .ok x) :
    (∃ es, entries accepts engine g [] [d] = .ok es) ↔ accepts.check engine x = .ok () := by
  have hfirst : Owners.assign [] d.name (identifier d.name) = .ok [(identifier d.name, d.name)] := rfl
  have hsecond : Owners.assign [(identifier d.name, d.name)] d.name (patternConstant d.name) =
      .ok [(patternConstant d.name, d.name), (identifier d.name, d.name)] := by
    have hne : (patternConstant d.name == identifier d.name) = false :=
      beq_eq_false_iff_ne.2 (patternConstant_ne_identifier d.name)
    rw [Owners.assign, lookup_cons, hne]
    rfl
  simp only [entries, entry, h, Entry.of, hfirst, hsecond, Except.mapError, bind, Except.bind]
  cases accepts.check engine x <;> simp [pure, Except.pure]

end Generate

open Generate (Config Generator)

namespace Graph

/-- **All gates agree.** If the pattern has a text, the analysis answers, and its list of engines decides
every other question: `regexp2` is in it exactly if the pattern is compiled, whatever the options are;
`coregex` is in it exactly if the pattern is compiled for linear time, which fails as a misreading
exactly if there is a subtraction of sets; both linear engines are in it exactly if the analysis says
so; and a list of one definition that stands for the pattern is rendered for an engine exactly if the
engine is in it. If the pattern has no text, all of them report the same failure. -/
theorem gates_agree (g : Graph) (accepts : Acceptance) (r : Ref) :
    (∀ x, g.render r = .ok x → ∃ a, g.analyze accepts r = .ok a ∧
      (∀ options timeout,
        (∃ y, g.compile accepts r options timeout = .ok y) ↔ .regexp2 ∈ a.engines) ∧
      ((∃ y, g.compileLinear accepts r = .ok y) ↔ .coregex ∈ a.engines) ∧
      ((∃ source, g.compileLinear accepts r = .error (.misread source)) ↔ x.subtraction = true) ∧
      (a.linear = true ↔ .regexp ∈ a.engines ∧ .coregex ∈ a.engines) ∧
      ∀ (c : Config) d, c.library = ⟨g, [d]⟩ → g.StandsFor d r →
        ((∃ ts, ((Generator.new c).render accepts).1 = .ok ts) ↔
          ∃ e ∈ a.engines, e.name = Generator.engineName c)) ∧
    ∀ f, g.render r = .error f → g.analyze accepts r = .error f ∧
      (∀ options timeout, g.compile accepts r options timeout = .error (.pattern f)) ∧
      g.compileLinear accepts r = .error (.pattern f) ∧
      ∀ (c : Config) d, c.library = ⟨g, [d]⟩ → g.StandsFor d r →
        ((Generator.new c).render accepts).1 = .error (.failed d.pos d.name g f) := by
  have hentries : ∀ (c : Config) d, c.library = ⟨g, [d]⟩ → (Generator.new c).entries accepts =
      Generate.entries accepts (Generator.engineName c) g [] [d] := by
    intro c d hc
    show Generate.entries accepts (Generator.engineName c) c.library.graph [] c.library.patterns = _
    rw [hc]
  refine ⟨fun x hx => ?_, fun f hf => ?_⟩
  · obtain ⟨a, ha, hengines, hlinear⟩ := exists_analyze_eq_ok accepts hx
    refine ⟨a, ha, fun options timeout => ?_, ?_, compileLinear_eq_misread hx, ?_, fun c d hc hd => ?_⟩
    · rw [compile_eq_ok hx, hengines]
    · rw [compileLinear_eq_ok hx, hengines]
    · rw [hlinear, hengines, hengines]
    · have htext : g.render (some d.node) = .ok x := hd.render_eq.trans hx
      have hengine : (∃ e ∈ a.engines, e.name = Generator.engineName c) ↔
          accepts.check (Generator.engineName c) x = .ok () := by
        simp only [hengines, Acceptance.check_eq_ok, and_comm]
      rw [hengine, ← Generate.entries_singleton_eq_ok htext, Generator.render, hentries c d hc]
      cases Generate.entries accepts (Generator.engineName c) g [] [d] <;> simp [Except.map]
  · refine ⟨?_, fun options timeout => ?_, ?_, fun c d hc hd => ?_⟩
    · exact bind_eq_error.2 (.inl hf)
    · exact bind_eq_error.2 (.inl (source_eq_error hf))
    · exact bind_eq_error.2 (.inl (source_eq_error hf))
    · have hfailed : g.render (some d.node) = .error f := hd.render_eq.trans hf
      rw [Generator.render, hentries c d hc, Generate.entries, Generate.entry, hfailed]
      rfl

/-- Letters without digits, and a backreference that has no text. -/
def wordsWithoutDigits : Graph :=
  ⟨#[.leaf (.charClass ⟨.word, []⟩), .leaf (.charClass ⟨.digit, []⟩),
    .set { members := [some 0], subtractedMembers := [some 1] },
    .leaf (.backreference (.numbered 42))]⟩

theorem gates_agree_wordsWithoutDigits :
    (wordsWithoutDigits.render (some 2) = .ok ⟨"[\\w-[\\d]]", true⟩ ∧
      ∃ a, wordsWithoutDigits.analyze Engine.accepts (some 2) = .ok a ∧
        ((∃ y, wordsWithoutDigits.compileLinear Engine.accepts (some 2) = .ok y) ↔
          .coregex ∈ a.engines) ∧
        ∃ source, wordsWithoutDigits.compileLinear Engine.accepts (some 2) =
          .error (.misread source)) ∧
    wordsWithoutDigits.render (some 3) = .error (.invalid 3 (.backreferenceNumber 42)) ∧
      wordsWithoutDigits.compile Engine.accepts (some 3) 0 0 =
        .error (.pattern (.invalid 3 (.backreferenceNumber 42))) := by
  have htext : wordsWithoutDigits.render (some 2) = .ok ⟨"[\\w-[\\d]]", true⟩ := by decide +kernel
  have hfails : wordsWithoutDigits.render (some 3) = .error (.invalid 3 (.backreferenceNumber 42)) := by
    decide +kernel
  obtain ⟨hok, -⟩ := gates_agree wordsWithoutDigits Engine.accepts (some 2)
  obtain ⟨a, ha, -, hlinear, hmisread, -⟩ := hok _ htext
  exact ⟨⟨htext, a, ha, hlinear, hmisread.2 rfl⟩, hfails,
    ((gates_agree wordsWithoutDigits Engine.accepts (some 3)).2 _ hfails).2.1 0 0⟩

end Graph
end RegexBuilder
