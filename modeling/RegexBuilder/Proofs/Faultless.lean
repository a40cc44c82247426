/-
# Descriptions have no faults

A fault is what no error reports: in a pattern what no question can answer, such as a range without one of its
endpoints, and in a description a part of a term that is taken without a look whether it is there, such as the first
bound of a count. Patterns and terms put together by hand may have faults, those that come from a text do not
(`Description.load_faultless`): the rule that reads a term sets the fields of one of its forms together
(`Expr.IsGrammatical`), and so the resolver finds what it takes (`resolve_failsOnly`).
-/

import RegexBuilder.Proofs.Cycle
import RegexBuilder.Proofs.Parsed
import RegexBuilder.Proofs.Resolved

namespace RegexBuilder

open List Option

/-! ### Graphs without a fault -/

/-- Every anchor has a form, and every set has all its members and endpoints: its members are written
in sets, and its endpoints are characters. -/
structure Graph.IsFaultless (g : Graph) : Prop where
  anchor : ∀ {i kind}, g.node? i = some (.leaf (.anchor kind)) → kind.form? ≠ none
  member : ∀ {i s m}, g.node? i = some (.set s) → m ∈ s.members ++ s.subtractedMembers →
    g.memberForm? m ≠ none
  endpoint : ∀ {i s r}, g.node? i = some (.set s) → r ∈ s.ranges ++ s.subtractedRanges →
    g.character? r.first ≠ none ∧ g.character? r.last ≠ none

namespace Graph

variable {g : Graph}

/-- Where there is no fault, every set is whole. -/
theorem IsFaultless.isWhole (hg : g.IsFaultless) {i : NodeId} {n : Node} (hn : g.node? i = some n) : n.IsWhole g := by
  cases n with
  | set =>
    refine ⟨fun m hm hnone => hg.member hn hm ?_, fun r hr => hg.endpoint hn hr⟩
    rw [memberForm?, hnone]
  | leaf l | concat cs | alternation cs | quantified b c | group c | enclosed how c
  | conditional | modified => trivial

/-- A proper graph has no faults. -/
theorem IsProper.isFaultless {D : Text → Prop} (h : g.IsProper D) : g.IsFaultless := by
  have hcharacter : ∀ {r : Ref}, (∃ c, g.deref? r = some (.leaf (.character c))) →
      g.character? r ≠ none := by
    rintro r ⟨c, hc⟩
    rw [character?, hc]
    exact some_ne_none _
  refine ⟨fun {i kind} hn => ?_, fun {i s m} hn hm => ?_, fun {i s r} hn hr => ?_⟩
  · have hkind : ∀ code, kind ≠ .undeclared code := h i _ hn
    cases kind with
    | undeclared code => exact absurd rfl (hkind code)
    | lineStart | lineEnd | textStart | textEndOrNewline | textEnd | contiguous | wordBoundary
    | notWordBoundary => exact some_ne_none _
  · obtain ⟨l, hl, hmember⟩ := (h i _ hn).1 m hm
    rw [memberForm?, hl]
    cases l with
    | character | charClass => exact some_ne_none _
    | literal | raw | wildcard | anchor | backreference | comment => exact hmember.elim
  · exact ((h i _ hn).2 r hr).imp hcharacter hcharacter

end Graph

/-! ### Answers and errors -/

/-- There is an answer or an error with words of its own: an objection of a node, or a recursion. -/
def IsReported {α : Type} (a : Except Failure α) : Prop :=
  (∃ x, a = .ok x) ∨ (∃ i why, a = .error (.invalid i why)) ∨ ∃ q path, a = .error (.recursion q path)

theorem isReported_of_error {α : Type} {a : Except Failure α}
    (h : ∀ f, a = .error f → f ≠ .exhausted ∧ ∀ b, f ≠ .broken b) : IsReported a := by
  match a, h with
  | .ok x, _ => exact .inl ⟨x, rfl⟩
  | .error (.invalid i why), _ => exact .inr (.inl ⟨i, why, rfl⟩)
  | .error (.recursion q path), _ => exact .inr (.inr ⟨q, path, rfl⟩)
  | .error (.broken b), h => exact absurd rfl ((h _ rfl).2 b)
  | .error .exhausted, h => exact absurd rfl (h _ rfl).1

/-- The five questions about what is referred to have an answer or an error with words of its own. -/
structure Graph.Reports (g : Graph) (r : Ref) : Prop where
  render : IsReported (g.render r)
  core : IsReported (g.core r)
  isEmpty : IsReported (g.isEmpty r)
  isSingle : IsReported (g.isSingle r)
  copy : IsReported (g.copy r)

/-- **Every question about a graph without faults is answered or reported.** -/
theorem Graph.IsFaultless.reports {g : Graph} (hg : g.IsFaultless) (r : Ref) : g.Reports r := by
  have hask : ∀ q f, g.questions true q r {} = .error f → f ≠ .exhausted ∧ ∀ b, f ≠ .broken b := by
    refine fun q f hf => ⟨?_, ?_⟩
    · rintro rfl
      exact asking_ne_exhausted (g.unopened_lt_depth _) q r {} hf
    · rintro b rfl
      obtain ⟨-, i, kind, hi, hform⟩ := questions_failsAs hf
      exact hg.anchor hi hform
  refine ⟨isReported_of_error fun f hf => hask _ f (Ask.eq_error_of_rendering hf),
    isReported_of_error fun f hf => hask _ f (Ask.eq_error_of_answer hf),
    isReported_of_error fun f hf => hask _ f (Ask.eq_error_of_answer hf),
    isReported_of_error fun f hf => hask _ f (Ask.eq_error_of_answer hf), isReported_of_error fun f hf => ?_⟩
  rcases copyFails_of_copy_eq_error hf with ⟨⟨path, rfl, -⟩, -⟩ | ⟨-, hnot⟩
  · exact ⟨Failure.noConfusion, fun b hb => by cases hb⟩
  · exact absurd (fun j n _ hn => hg.isWhole hn) hnot

/-! ### Terms with all their parts -/

namespace Description

/-- The problem says what is wrong with the term. -/
def TermProblem.IsReport : TermProblem → Prop
  | fault _ => False
  | argument _ | numeric _ | notSingle _ | invertedQuantifier _ _ | cannotBeNamed _ | unknownPattern _ => True

/-- The error says what is wrong with the description. -/
def LoadError.IsReport : LoadError → Prop
  | fault _ => False
  | badTerm _ _ problem => problem.IsReport
  | badSyntax _ | keyword _ _ | definedTwice _ _ => True

section

variable {α : Type}

/-- A part that is there is taken. -/
theorem take_failsOnly {gap : Gap} {o : Option α} (h : o ≠ none) : FailsOnly TermProblem.IsReport (take gap o) := by
  cases o with
  | none => exact absurd rfl h
  | some a => exact .ok a

theorem ofArgument_failsOnly (r : Except ArgumentError α) : FailsOnly TermProblem.IsReport (ofArgument r) := by
  intro e he
  obtain ⟨e', -, rfl⟩ := mapError_eq_error.1 he
  trivial

theorem oneChar_failsOnly (t : Text) : FailsOnly TermProblem.IsReport (oneChar t) := by
  unfold oneChar
  split
  · exact .ok _
  · exact .error trivial

theorem locate_failsOnly {pos : Position} {r : Except TermProblem α} (h : FailsOnly TermProblem.IsReport r) :
    FailsOnly (fun e => e.2.IsReport) (locate pos r) := h.mapError fun _ he => he

end

/-- **The bounds of a quantifier are there** if its count is a mark or has a first bound. -/
theorem Quantifier.bounds_failsOnly {q : Quantifier} (hq : q.count.IsFilled) :
    FailsOnly TermProblem.IsReport q.bounds := by
  obtain ⟨count, isLazy⟩ := q
  cases (hq : count.IsFilled) with
  | marked m => cases m <;> exact .ok _
  | braces =>
    refine .bind (take_failsOnly (some_ne_none _)) fun n _ => ?_
    split
    · exact .ok _
    · exact .ok _
    · split
      · exact .error trivial
      · exact .ok _

/-- **The group of a condition is there** if the reference has a number or a name. -/
theorem GroupRef.condition_failsOnly {x : GroupRef} (hx : x.IsFilled) : FailsOnly TermProblem.IsReport x.condition := by
  cases hx with
  | numbered => exact .ok _
  | named => exact ofArgument_failsOnly _

/-- **The group of a backreference is there** if the reference has a number or a name. -/
theorem GroupRef.backreference_failsOnly {x : GroupRef} (hx : x.IsFilled) :
    FailsOnly TermProblem.IsReport x.backreference := by
  cases hx with
  | numbered => exact .ok _
  | named => exact ofArgument_failsOnly _

/-- **The text or the class of an entry is there** if the entry has one of the forms of the grammar. -/
theorem SetItem.elements_failsOnly {i : SetItem} (hi : i.IsFilled) : FailsOnly TermProblem.IsReport i.elements := by
  cases hi with
  | chars => exact .ok _
  | range =>
    refine .bind (take_failsOnly (some_ne_none _)) fun a _ => ?_
    refine (oneChar_failsOnly _).bind fun _ _ => (oneChar_failsOnly _).bind fun _ _ => ?_
    exact (ofArgument_failsOnly _).bind fun _ _ => .ok _
  | category => exact (ofArgument_failsOnly _).bind fun _ _ => .ok _
  | @cls which h =>
    have hkind : which.kind? ≠ none := by
      rintro hnone
      cases which with
      | any => exact absurd h (by decide)
      | digit | notdigit | word | notword | space | notspace => cases hnone
    exact (take_failsOnly hkind).bind fun _ _ => .ok _

theorem itemElements_failsOnly {items : List PlacedItem} (h : ∀ i ∈ items, i.item.IsFilled) :
    FailsOnly (fun e => e.2.IsReport) (itemElements items) := by
  induction items with
  | nil => exact .ok _
  | cons i items ih =>
    obtain ⟨hi, hitems⟩ := forall_mem_cons.1 h
    exact (locate_failsOnly (SetItem.elements_failsOnly hi)).bind fun _ _ => (ih hitems).bind fun _ _ => .ok _

theorem LeafWord.leaf_failsOnly (w : LeafWord) (arg : Text) : FailsOnly TermProblem.IsReport (w.leaf arg) := by
  cases w with
  | char => exact (oneChar_failsOnly arg).map
  | raw => exact .ok _
  | category | notcategory | hex | octal | unicode | comment => exact ofArgument_failsOnly _
  | control => exact (oneChar_failsOnly arg).bind fun _ _ => ofArgument_failsOnly _

theorem GroupWord.enclosure_failsOnly (w : GroupWord) (label : Option GroupLabel) :
    FailsOnly TermProblem.IsReport (w.enclosure label) := by
  unfold enclosure
  split
  case h_2 => exact ofArgument_failsOnly _
  case h_3 => exact .error trivial
  all_goals exact .ok _

theorem optionSets_failsOnly (flags : Text) : FailsOnly TermProblem.IsReport (optionSets flags) :=
  (ofArgument_failsOnly _).bind fun _ _ => (ofArgument_failsOnly _).bind fun _ _ => .ok _

/-- The fields of the term, and of all terms inside it, are set as the grammar sets them. -/
structure Term.IsWhole (t : Term) : Prop where
  grammatical : t.IsGrammatical
  bodies : ∀ b ∈ t.atom.bodies, Everywhere Expr.IsGrammatical b

theorem isWhole_of_everywhere {e : Expr} (h : Everywhere Expr.IsGrammatical e) : ∀ s ∈ e, ∀ t ∈ s, t.IsWhole := by
  obtain ⟨hgrammatical, hbodies⟩ := everywhere_iff.1 h
  exact fun s hs t ht => ⟨(hgrammatical.2 s hs).2 t ht, hbodies s hs t ht⟩

section

variable {nodes : Text → Option NodeId}

mutual

/-- The resolver reports what is wrong with an atom, if anything is. -/
theorem Atom.tree_failsOnly : ∀ {a : Atom} {pos : Position}, a.IsGrammatical →
    (∀ b ∈ a.bodies, Everywhere Expr.IsGrammatical b) → FailsOnly (fun e => e.2.IsReport) (a.tree nodes pos)
  | .literal text, _, _, _ => .ok _
  | .parens body, _, _, hbodies =>
    (sequenceTrees_failsOnly (isWhole_of_everywhere (hbodies body (mem_singleton.2 rfl)))).map.bind
      fun _ _ => .ok _
  | .set s, _, hs, _ => by
    obtain ⟨hitems, hexcept⟩ := forall_mem_append.1 hs
    exact (itemElements_failsOnly hitems).bind fun _ _ => (itemElements_failsOnly hexcept).bind fun _ _ => .ok _
  | .range min max zeros, pos, _, _ => by
    refine locate_failsOnly fun e he => ?_
    obtain ⟨e', -, rfl⟩ := mapError_eq_error.1 he
    trivial
  | .group which label body, _, _, hbodies =>
    (sequenceTrees_failsOnly (isWhole_of_everywhere (hbodies body (mem_singleton.2 rfl)))).map.bind
      fun _ _ => (locate_failsOnly (which.enclosure_failsOnly label)).bind fun _ _ => .ok _
  | .leaf which arg, _, _, _ => (locate_failsOnly (which.leaf_failsOnly arg)).bind fun _ _ => .ok _
  | .backref group, _, hx, _ => (locate_failsOnly (GroupRef.backreference_failsOnly hx)).bind fun _ _ => .ok _
  | .cond test yes none, _, hx, hbodies =>
    (sequenceTrees_failsOnly (isWhole_of_everywhere (hbodies yes mem_cons_self))).map.bind
      fun _ _ => (locate_failsOnly (GroupRef.condition_failsOnly hx)).bind fun _ _ => .ok _
  | .cond test yes (some no), _, hx, hbodies => by
    obtain ⟨hyes, hno⟩ := forall_mem_cons.1 hbodies
    refine (sequenceTrees_failsOnly (isWhole_of_everywhere hyes)).map.bind fun _ _ => ?_
    refine (sequenceTrees_failsOnly (isWhole_of_everywhere (hno no (mem_singleton.2 rfl)))).map.bind fun _ _ => ?_
    exact (locate_failsOnly (GroupRef.condition_failsOnly hx)).bind fun _ _ => .ok _
  | .modify flags body, _, _, hbodies =>
    (locate_failsOnly (optionSets_failsOnly flags)).bind fun _ _ =>
      (sequenceTrees_failsOnly (isWhole_of_everywhere (hbodies body (mem_singleton.2 rfl)))).map.bind
        fun _ _ => .ok _
  | .cls which, _, _, _ => .ok _
  | .anchor which, _, _, _ => .ok _
  | .ref name, _, _, _ => by
    rw [Atom.tree]
    split
    · exact .ok _
    · exact .error trivial

/-- A whole term has a tree, or there is a report. -/
theorem Term.tree_failsOnly : ∀ {t : Term}, t.IsWhole → FailsOnly (fun e => e.2.IsReport) (t.tree nodes)
  | .mk pos a q, h => by
    rw [Term.tree]
    refine (Atom.tree_failsOnly h.grammatical.atom h.bodies).bind fun _ _ => ?_
    cases q with
    | none => exact .ok _
    | some q => exact (locate_failsOnly (Quantifier.bounds_failsOnly (h.grammatical.count q rfl))).bind fun _ _ => .ok _

theorem termTrees_failsOnly : ∀ {s : List Term}, (∀ t ∈ s, t.IsWhole) →
    FailsOnly (fun e => e.2.IsReport) (termTrees nodes s)
  | [], _ => .ok _
  | t :: s, h => by
    obtain ⟨ht, hs⟩ := forall_mem_cons.1 h
    exact (Term.tree_failsOnly ht).bind fun _ _ => (termTrees_failsOnly hs).bind fun _ _ => .ok _

theorem sequenceTrees_failsOnly : ∀ {e : List (List Term)}, (∀ s ∈ e, ∀ t ∈ s, t.IsWhole) →
    FailsOnly (fun e => e.2.IsReport) (sequenceTrees nodes e)
  | [], _ => .ok _
  | s :: e, h => by
    obtain ⟨hs, he⟩ := forall_mem_cons.1 h
    exact (termTrees_failsOnly hs).bind fun _ _ => (sequenceTrees_failsOnly he).bind fun _ _ => .ok _

end

theorem definitionTrees_failsOnly {ds : List Definition} (hds : ∀ d ∈ ds, Everywhere Expr.IsGrammatical d.expr) :
    FailsOnly LoadError.IsReport (definitionTrees nodes ds) := by
  induction ds with
  | nil => exact .ok _
  | cons d ds ih =>
    obtain ⟨hd, hds⟩ := forall_mem_cons.1 hds
    have htree : FailsOnly LoadError.IsReport ((exprTree nodes d.expr).mapError (.ofTerm d.name)) := by
      refine (sequenceTrees_failsOnly (isWhole_of_everywhere hd)).map.mapError ?_
      rintro ⟨pos, problem⟩ hproblem
      cases problem with
      | fault => exact hproblem
      | argument | numeric | notSingle | invertedQuantifier | cannotBeNamed | unknownPattern => trivial
    exact htree.bind fun _ _ => (ih hds).bind fun _ _ => .ok _

end

theorem checkNames_failsOnly (seen : List Text) (ds : List Definition) :
    FailsOnly LoadError.IsReport (checkNames seen ds) := by
  fun_induction checkNames seen ds with
  | case1 => exact .ok _
  | case2 | case3 => exact .error trivial
  | case4 seen d rest _ _ ih => exact ih

/-- **The resolver finds all it takes,** if the fields of every term are set as the grammar sets them. -/
theorem resolve_failsOnly {ds : List Definition} (hds : ∀ d ∈ ds, Everywhere Expr.IsGrammatical d.expr) :
    FailsOnly LoadError.IsReport (resolve ds) :=
  (checkNames_failsOnly [] ds).bind fun _ _ => (definitionTrees_failsOnly hds).bind fun _ _ => .ok _

/-- The grammar sets the fields of a term together. -/
theorem isGrammatical_of_parse {file src : Text} {ds : List Definition} (h : parse file src = .ok ds) :
    ∀ d ∈ ds, Everywhere Expr.IsGrammatical d.expr := by
  obtain ⟨-, -, -, -, -, -, hread⟩ := parse_reads h
  exact fun d hd e he => (hread d hd e he).1

/-! ### Descriptions -/

/-- **No description leads to a fault.** What is read from a file has the fields of every term set as one form of
the grammar sets them: a count has its mark or its first bound, a reference to a group its number or its name, an
entry of a set its text or a class that can be a member. So a file is refused with an error that says what is
wrong, or its definitions become groups of a graph in which every anchor has a form and every set has its members
and the endpoints of its ranges. Each of the five questions about one of these groups, copies included, has
an answer or an error with words of its own. -/
theorem load_faultless (file src : Text) :
    (∀ ds, parse file src = .ok ds → ∀ d ∈ ds, Everywhere Expr.IsGrammatical d.expr) ∧
    ((∃ why, load file src = .error why ∧ why.IsReport) ∨
    ∃ ds lib, parse file src = .ok ds ∧ load file src = .ok lib ∧ lib.graph.IsFaultless ∧
      lib.patterns.length = ds.length ∧ ∀ p ∈ lib.patterns,
        (∃ child, lib.graph.node? p.node = some (.group child)) ∧ lib.graph.Reports (some p.node)) := by
  refine ⟨fun ds => isGrammatical_of_parse, ?_⟩
  cases hload : load file src with
  | error why =>
    refine .inl ⟨why, rfl, ?_⟩
    rcases bind_eq_error.1 hload with hparse | ⟨ds, hparse, hresolve⟩
    · obtain ⟨e, -, rfl⟩ := mapError_eq_error.1 hparse
      trivial
    · exact resolve_failsOnly (isGrammatical_of_parse (mapError_eq_ok.1 hparse)) why hresolve
  | ok =>
    obtain ⟨ds, hparse, hlib⟩ := bind_eq_ok.1 hload
    obtain ⟨hproper, hstands⟩ := exists_stands_of_resolve hlib (areProper_true ds)
    obtain ⟨-, ts, -, rfl⟩ := resolve_eq_ok.1 hlib
    refine .inr ⟨ds, _, mapError_eq_ok.1 hparse, rfl, hproper.isFaultless, ?_, fun p hp => ⟨?_, ?_⟩⟩
    · rw [← length_map (f := NamedPattern.name), names_namedFrom, length_map]
    · obtain ⟨d, hd, -, -⟩ := mem_namedFrom.1 hp
      obtain ⟨-, child, -, -, hgroup, -⟩ := hstands p.node d hd
      exact ⟨child, hgroup⟩
    · exact hproper.isFaultless.reports (some p.node)

end Description
end RegexBuilder
