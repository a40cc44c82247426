/-
# Expressions that are read

The rules for expressions, atoms, terms and sequences read the symbols that they write, up to places, given the rule
for the sequences inside them. A term is read only if what follows does not go on with it (`Term.Precedes`): a
string right behind a term may be its quantifier.
-/

import RegexBuilder.Proofs.Spelled

namespace RegexBuilder.Description

open List

open Description.Rule

/-! ### Expressions -/

/-- The symbols begin with one of the words. -/
def Begins (ws : List Text) (ss : List Symbol) : Prop := ∃ w ∈ ws, ∃ ss', ss = .word w :: ss'

/-- What may follow an expression. -/
def exprEnds : List Text := [(")" : Text), ",", ";"]

/-- What may follow a sequence. -/
def sequenceEnds : List Text := "|" :: exprEnds

/-- The rule reads the sequence, up to places. -/
def ReadsSequence (sequence : Rule Sequence) (s : Sequence) : Prop :=
  ∀ ⦃after⦄, Begins sequenceEnds after →
    sequence.Meets (sequenceSymbols s ++ after) after (unplacedTerms · = unplacedTerms s)

section

variable {sequence : Rule Sequence} {after : List Symbol}

/-- A bar or what follows the expression stands behind a sequence. -/
theorem begins_branches (more : List Sequence) (hafter : Begins exprEnds after) :
    Begins sequenceEnds (branchSymbols more ++ after) := by
  cases more with
  | nil =>
    obtain ⟨w, hw, ss, hss⟩ := hafter
    exact ⟨w, mem_cons_of_mem _ hw, ss, hss⟩
  | cons => exact ⟨_, mem_cons_self, _, rfl⟩

/-- **Further branches are read** one after another. -/
theorem branches_reads {more : List Sequence} (hmore : ∀ s ∈ more, ReadsSequence sequence s)
    (hafter : Begins exprEnds after) : (many (branch sequence)).Meets (branchSymbols more ++ after) after
      (unplacedSequences · = unplacedSequences more) := by
  have hends : ∀ w ∈ exprEnds, ("|" : Text) ≠ w := by decide
  have hstops : ∀ ⦃ts rest⦄, Spells after ts rest → (branch sequence).Stops ts := by
    obtain ⟨w, hw, ss, rfl⟩ := hafter
    exact fun _ _ => (lacks_word (hends w hw)).stops
  simp only [branchSymbols_eq, unplacedSequences_eq]
  refine (Meets.repeats (fun s _ => cons_ne_nil _ _) hstops fun s more' hsuffix => ?_).many
  rw [← branchSymbols_eq]
  exact .word_bind fun _ => hmore s (hsuffix.subset mem_cons_self) (begins_branches more' hafter)

/-- **An expression is read,** if its sequences are. -/
theorem expression_reads {e : Expr} (hne : e ≠ []) (he : ∀ s ∈ e, ReadsSequence sequence s)
    (hafter : Begins exprEnds after) : (expression sequence).Meets (exprSymbols e ++ after) after
      (unplacedSequences · = unplacedSequences e) := by
  obtain ⟨s, more, rfl⟩ := exists_cons_of_ne_nil hne
  obtain ⟨hs, hmore⟩ := forall_mem_cons.1 he
  rw [exprSymbols, append_assoc]
  refine (hs (begins_branches more hafter)).bind fun s' hsame =>
    (branches_reads hmore hafter).bind fun more' hsames => .pure ?_
  rw [unplacedSequences, unplacedSequences, hsame, hsames]

end

/-! ### Atoms around expressions -/

section

variable {sequence : Rule Sequence} {ss : List Symbol}

/-- The rule reads the expressions inside the atom. -/
def ReadsBodies (sequence : Rule Sequence) (a : Atom) : Prop :=
  ∀ b ∈ a.bodies, b ≠ [] ∧ ∀ s ∈ b, ReadsSequence sequence s

theorem begins_word {w : Text} {ws : List Text} (hw : w ∈ ws) (ss : List Symbol) :
    Begins ws (.word w :: ss) := ⟨w, hw, ss, rfl⟩

variable {body : Expr} {no : Option Expr}

/-- An expression inside an atom is read up to the closing parenthesis. -/
theorem ReadsBodies.reads {a : Atom} (h : ReadsBodies sequence a) (hbody : body ∈ a.bodies) :
    (expression sequence).Meets (exprSymbols body ++ Symbol.word ")" :: ss) (.word ")" :: ss)
      (unplacedSequences · = unplacedSequences body) :=
  expression_reads (h body hbody).1 (h body hbody).2 (begins_word (by decide) _)

theorem parensAtom_reads (hbody : ReadsBodies sequence (.parens body)) : (parensAtom sequence).Meets
    ((Atom.parens body).symbols ++ ss) ss (·.unplaced = (Atom.parens body).unplaced) := by
  simp only [Atom.symbols, cons_append, append_assoc, List.nil_append]
  refine .word_bind fun _ => (hbody.reads (mem_singleton.2 rfl)).bind fun e hsame =>
    .word_bind fun _ => .pure ?_
  rw [Atom.unplaced, Atom.unplaced, hsame]

theorem groupLabel_reads {l : GroupLabel} : groupLabel.Meets (l.symbols ++ ss) ss (· = l) := by
  simp only [GroupLabel.symbols, cons_append, append_assoc, List.nil_append]
  have hname : (Rule.option ident).Meets ((if l.name = [] then [] else [.ident l.name]) ++
      ((if l.other = [] then [] else [Symbol.word "-", .ident l.other]) ++ Symbol.word ">" :: ss))
      ((if l.other = [] then [] else [Symbol.word "-", .ident l.other]) ++ Symbol.word ">" :: ss)
      (·.getD [] = l.name) := by
    split
    · next hnil =>
      refine .option_none hnil.symm fun _ _ h => .inl ?_
      split at h <;> exact noMatch_bind (Spells.noMatch_ofKind h (by decide))
    · exact .option_some (Meets.ident.mono fun _ h => h)
  have hother : (Rule.option otherName).Meets
      ((if l.other = [] then [] else [Symbol.word "-", .ident l.other]) ++ Symbol.word ">" :: ss)
      (.word ">" :: ss) (·.getD [] = l.other) := by
    split
    · next hnil => exact .option_none hnil.symm fun _ _ => (lacks_word (by decide)).stops
    · exact .option_some (.word_bind fun _ => Meets.ident.mono fun _ h => h)
  exact .word_bind fun _ => hname.bind fun name hname => hother.bind fun other hother =>
    .word_bind fun _ => .pure (by rw [hname, hother])

/-- **A group is read.** -/
theorem groupAtom_reads {w : GroupWord} {label : Option GroupLabel}
    (hbody : ReadsBodies sequence (.group w label body)) :
    (groupAtom sequence).Meets ((Atom.group w label body).symbols ++ ss) ss
      (·.unplaced = (Atom.group w label body).unplaced) := by
  simp only [Atom.symbols, cons_append, append_assoc, List.nil_append]
  have hlabel : ∀ {ss}, (Rule.option groupLabel).Meets (optionSymbols GroupLabel.symbols label ++
      Symbol.word "(" :: ss) (.word "(" :: ss) (· = label) := by
    intro ss
    cases label with
    | none => exact .option_none rfl fun _ _ => (lacks_word (by decide)).stops
    | some => exact .option_eq groupLabel_reads
  refine (Meets.oneWord (by cases w <;> decide) (by decide)).bind_eq <| hlabel.bind_eq <| .word_bind fun _ =>
    (hbody.reads (mem_singleton.2 rfl)).bind fun e hsame => .word_bind fun _ => .pure ?_
  rw [Atom.unplaced, Atom.unplaced, hsame]

theorem modifyAtom_reads {flags : Text} (hbody : ReadsBodies sequence (.modify flags body)) :
    (modifyAtom sequence).Meets ((Atom.modify flags body).symbols ++ ss) ss
      (·.unplaced = (Atom.modify flags body).unplaced) := by
  simp only [Atom.symbols, cons_append, append_assoc, List.nil_append]
  refine .word_bind fun _ => .word_bind fun _ => Meets.string.bind_eq <| .word_bind fun _ =>
    (hbody.reads (mem_singleton.2 rfl)).bind fun e hsame => .word_bind fun _ => .pure ?_
  rw [Atom.unplaced, Atom.unplaced, hsame]

/-- The symbols of the second branch of a conditional. -/
def otherwiseSymbols : Option Expr → List Symbol := optionSymbols fun e => .word "," :: exprSymbols e

theorem symbols_cond (x : GroupRef) (yes : Expr) (no : Option Expr) : (Atom.cond x yes no).symbols =
    [Symbol.word "if", .word "("] ++ x.symbols ++ Symbol.word "," :: exprSymbols yes ++ otherwiseSymbols no ++
      [Symbol.word ")"] := by
  cases no <;> simp [Atom.symbols, otherwiseSymbols, optionSymbols]

theorem otherwise_reads (hno : ∀ b ∈ no.toList, b ≠ [] ∧ ∀ s ∈ b, ReadsSequence sequence s) :
    (Rule.option (otherwise sequence)).Meets (otherwiseSymbols no ++ Symbol.word ")" :: ss) (.word ")" :: ss)
      fun o => o.map unplacedSequences = no.map unplacedSequences := by
  cases no with
  | none => exact .option_none rfl fun _ _ => (lacks_word (by decide)).stops
  | some e =>
    obtain ⟨hne, he⟩ := hno e (mem_singleton.2 rfl)
    exact .option_some <| .word_bind fun _ =>
      (expression_reads hne he (begins_word (by decide) _)).mono fun _ hsame => congrArg some hsame

theorem begins_otherwise (no : Option Expr) : Begins exprEnds (otherwiseSymbols no ++ Symbol.word ")" :: ss) := by
  cases no with
  | none | some => exact begins_word (by decide) _

/-- **A conditional is read.** Its number is looked at behind the first sequence. -/
theorem condAtom_reads {x : GroupRef} {yes : Expr} (hx : x.IsFilled) (hbodies : ReadsBodies sequence (.cond x yes no)) :
    (condAtom sequence).Meets ((Atom.cond x yes no).symbols ++ ss) ss (·.unplaced = (Atom.cond x yes no).unplaced) := by
  obtain ⟨⟨hne, hyes⟩, hno⟩ := forall_mem_cons.1 hbodies
  obtain ⟨s, more, rfl⟩ := exists_cons_of_ne_nil hne
  obtain ⟨hs, hmore⟩ := forall_mem_cons.1 hyes
  simp only [symbols_cond, exprSymbols, cons_append, append_assoc, List.nil_append]
  refine .word_bind fun _ => .word_bind fun _ => (groupRef_reads hx).bind fun raw hraw => .word_bind fun _ =>
    (hs (begins_branches more (begins_otherwise no))).bind fun s' hsame =>
    (Meets.of_eq hraw).bind_eq <| (branches_reads hmore (begins_otherwise no)).bind fun more' hsames =>
    (otherwise_reads hno).bind fun no' hsameno => .word_bind fun _ => .pure ?_
  have hyes : unplacedSequences (s' :: more') = unplacedSequences (s :: more) := by
    rw [unplacedSequences, unplacedSequences, hsame, hsames]
  rw [Atom.unplaced_cond, Atom.unplaced_cond, hyes, hsameno]

end

/-! ### Choosing the atom -/

/-- The rules for atoms that begin with a word, in the order in which they are tried. -/
def wordRules (sequence : Rule Sequence) : List (Rule Atom) :=
  [parensAtom sequence, setAtom, rangeAtom, groupAtom sequence, leafAtom, backrefAtom, condAtom sequence,
    modifyAtom sequence, classAtom, anchorAtom]

/-- The words that atoms begin with, for each of the rules. -/
def atomWords : List (List Text) :=
  [[("(" : Text)], [("[" : Text)], [("range" : Text)], GroupWord.all.map GroupWord.spelling,
    LeafWord.all.map LeafWord.spelling, [("backref" : Text)], [("if" : Text)], [("modify" : Text)],
    ClassWord.all.map ClassWord.spelling, AnchorWord.all.map AnchorWord.spelling]

/-- The number of the rule for an atom that begins with a word. -/
def Atom.rule : Atom → Nat
  | parens _ => 0
  | set _ => 1
  | range .. => 2
  | group .. => 3
  | leaf .. => 4
  | backref _ => 5
  | cond .. => 6
  | modify .. => 7
  | cls _ => 8
  | anchor _ => 9
  | literal _ | ref _ => 10

/-- An atom is a literal or a reference, or it begins with a word of its rule. -/
theorem Atom.exists_word (a : Atom) : (∃ v, a = .literal v) ∨ (∃ x, a = .ref x) ∨
    ∃ w ss ws, a.symbols = .word w :: ss ∧ atomWords[a.rule]? = some ws ∧ w ∈ ws := by
  cases a with
  | literal v => exact .inl ⟨v, rfl⟩
  | ref x => exact .inr (.inl ⟨x, rfl⟩)
  | parens | set | range | backref | modify =>
    rw [symbols]
    exact .inr (.inr ⟨_, _, _, rfl, rfl, mem_singleton.2 rfl⟩)
  | cond =>
    rw [symbols_cond]
    exact .inr (.inr ⟨_, _, _, rfl, rfl, mem_singleton.2 rfl⟩)
  | group w | leaf w | cls w | anchor w =>
    rw [symbols]
    exact .inr (.inr ⟨_, _, _, rfl, rfl, mem_map_of_mem (by cases w <;> decide)⟩)

section

variable {sequence : Rule Sequence} {s : Symbol} {ss : List Symbol} {ts mid rest : List Token}

/-- A rule does not match where none of its words stands. -/
theorem wordRules_noMatch (h : Spells (s :: ss) ts rest) :
    Forall₂ (fun r ws => (∀ w ∈ ws, ¬ s.HasValue w) → r ts = .noMatch) (wordRules sequence) atomWords := by
  have hword : ∀ {α : Type} {w : Text} {k : Token → Rule α}, (∀ w' ∈ [w], ¬ s.HasValue w') →
      (Rule.word w >>= k) ts = .noMatch := fun hs =>
    noMatch_bind (Spells.noMatch_word h (hs _ (mem_singleton.2 rfl)))
  have honeWord : ∀ {α : Type} {spelling : α → Text} {words : List α} {k : α → Rule Atom},
      (∀ w ∈ words.map spelling, ¬ s.HasValue w) → (Rule.oneWord spelling words >>= k) ts = .noMatch :=
    fun hs => noMatch_bind (Spells.noMatch_oneWord h hs)
  exact .cons hword <| .cons (fun hs => noMatch_bind (hword hs)) <| .cons hword <| .cons honeWord <|
    .cons honeWord <| .cons hword <| .cons hword <| .cons hword <| .cons honeWord <| .cons honeWord .nil

theorem wordRules_take_noMatch (h : Spells (s :: ss) ts rest) (n : Nat)
    (hs : ∀ w ∈ (atomWords.take n).flatten, ¬ s.HasValue w) : ∀ r ∈ (wordRules sequence).take n, r ts = .noMatch := by
  intro r hr
  obtain ⟨ws, hws, hnoMatch⟩ := exists_mem_of_forall₂ (forall₂_take n (wordRules_noMatch h)) hr
  exact hnoMatch fun w hw => hs w (mem_flatten_of_mem hws hw)

variable {n : Nat} {ws : List Text} {w x : Text} {a : Atom}

/-- No word begins the atoms of two rules. -/
theorem not_mem_take_atomWords (hn : atomWords[n]? = some ws) (hw : w ∈ ws) : w ∉ (atomWords.take n).flatten := by
  have hnodup : atomWords.flatten.Nodup := by decide +kernel
  have hdisjoint : (atomWords.take n ++ atomWords.drop n).Pairwise List.Disjoint := by
    rw [take_append_drop]
    exact (nodup_flatten.1 hnodup).2
  have hdrop : ws ∈ atomWords.drop n := by
    refine mem_of_getElem? (i := 0) ?_
    rw [getElem?_drop]
    exact hn
  intro hmem
  obtain ⟨ws', hws', hw'⟩ := mem_flatten.1 hmem
  exact (pairwise_append.1 hdisjoint).2.2 ws' hws' ws hdrop hw' hw

/-- An atom that begins with a word is read by the rule for the word. -/
theorem atom_reads (n : Nat) {r : Rule Atom} {ss after : List Symbol} {Q : Atom → Prop}
    (hss : ∃ ss', ss = .word w :: ss') (hn : (wordRules sequence)[n]? = some r)
    (hws : atomWords[n]? = some ws) (hw : w ∈ ws)
    (hr : r.Meets ss after Q) : (atom sequence).Meets ss after Q := by
  intro ts rest h
  obtain ⟨a, mid, ha, hmid⟩ := hr h
  obtain ⟨ss, rfl⟩ := hss
  have hliteral : literalAtom ts = .noMatch :=
    noMatch_bind (noMatch_bind (Spells.noMatch_ofKind h (kind_word_ne_string w)))
  have hvalue : ∀ w' ∈ (atomWords.take n).flatten, ¬ (Symbol.word w).HasValue w' :=
    fun w' hw' => not_hasValue_word (ne_of_mem_of_not_mem hw' (not_mem_take_atomWords hws hw))
  have hlt : n < (wordRules sequence).length := (List.getElem?_eq_some_iff.1 hn).1
  have hfirst : FirstMatch (wordRules sequence ++ [refAtom]) ts a mid := by
    refine .of_getElem? n ?_ ?_ ha
    · rw [getElem?_append_left hlt, hn]
    · rw [take_append_of_le_length hlt.le]
      exact wordRules_take_noMatch h n hvalue
  exact ⟨a, mid, matched_firstOf.2 (.inr ⟨.inl hliteral, hfirst⟩), hmid⟩

/-- Where neither a string nor a word stands that atoms begin with, no rule but the last matches. -/
theorem atomRules_noMatch (h : Spells (s :: ss) ts rest) (hkind : s.kind ≠ .string)
    (hs : ∀ w ∈ atomWords.flatten, ¬ s.HasValue w) : ∀ r ∈ literalAtom :: wordRules sequence, r ts = .noMatch := by
  have hliteral : literalAtom ts = .noMatch := noMatch_bind (noMatch_bind (Spells.noMatch_ofKind h hkind))
  refine forall_mem_cons.2 ⟨hliteral, ?_⟩
  exact wordRules_take_noMatch h (wordRules sequence).length hs

/-- A reference is read if it is none of the words that atoms begin with. -/
theorem refAtom_reads (hx : ∀ w ∈ atomWords.flatten, w ≠ x) :
    (atom sequence).Meets ((Atom.ref x).symbols ++ ss) ss (· = .ref x) := by
  rw [Atom.symbols]
  intro ts rest h
  have href : refAtom.Meets (.ident x :: ss) ss (· = .ref x) := Meets.ident.bind_eq (.pure rfl)
  obtain ⟨a, mid, ha, hmid⟩ := href h
  have hfirst : FirstMatch ((literalAtom :: wordRules sequence) ++ [refAtom]) ts a mid :=
    .of_getElem? (literalAtom :: wordRules sequence).length rfl (atomRules_noMatch h nofun hx) ha
  exact ⟨a, mid, matched_firstOf.2 hfirst, hmid⟩

theorem atom_stops (hw : w ∈ sequenceEnds) (h : Spells (.word w :: ss) ts rest) : (atom sequence).Stops ts := by
  have hwords : ∀ w ∈ sequenceEnds, wordKind w = .punct ∧ ∀ w' ∈ atomWords.flatten, w' ≠ w := by
    decide +kernel
  obtain ⟨hpunct, hvalue⟩ := hwords w hw
  have hbefore : ∀ r ∈ literalAtom :: wordRules sequence, r ts = .noMatch :=
    atomRules_noMatch h (kind_word_ne_string w) hvalue
  have href : refAtom ts = .noMatch := by
    refine noMatch_bind (noMatch_bind (Spells.noMatch_ofKind h ?_))
    rw [Symbol.kind, hpunct]
    decide
  refine stops_firstOf fun r hr => .inl ?_
  rcases mem_append.1 (show r ∈ (literalAtom :: wordRules sequence) ++ [refAtom] from hr) with hr | hr
  · exact hbefore r hr
  · rw [mem_singleton.1 hr]
    exact href

/-- The atom is read by the rule for atoms, up to places. -/
def ReadsAtom (sequence : Rule Sequence) (a : Atom) : Prop :=
  ∀ ⦃ss⦄, (atom sequence).Meets (a.symbols ++ ss) ss (·.unplaced = a.unplaced)

/-- The name of a definition is an identifier and no keyword. -/
def IsName (x : Text) : Prop := isIdentifier x = true ∧ x ∉ keywords

theorem IsName.ne (hx : IsName x) (hwords : ∀ w ∈ ws, w ∈ keywords ∨ isIdentifier w = false) : ∀ w ∈ ws, w ≠ x := by
  rintro w hw rfl
  rcases hwords w hw with h | h
  · exact hx.2 h
  · exact absurd hx.1 (Bool.eq_false_iff.1 h)

/-- **An atom is read,** if the expressions inside it are and no string in it is taken for a word. -/
theorem readsAtom (hbodies : ReadsBodies sequence a) (hgrammatical : a.IsGrammatical)
    (hset : ∀ x, a = .set x → x.IsUnmistakable) (href : ∀ x, a = .ref x → IsName x) : ReadsAtom sequence a := by
  intro ss
  have hword : ∀ {r}, (wordRules sequence)[a.rule]? = some r → r.Meets (a.symbols ++ ss) ss (·.unplaced = a.unplaced) →
      (atom sequence).Meets (a.symbols ++ ss) ss (·.unplaced = a.unplaced) := by
    intro r hr hreads
    rcases a.exists_word with ⟨v, rfl⟩ | ⟨x, rfl⟩ | ⟨w, ss', ws, hss, hws, hw⟩
    · cases hr
    · cases hr
    · exact atom_reads a.rule ⟨_, congrArg (· ++ ss) hss⟩ hr hws hw hreads
  have hsame : ∀ {b : Atom} {r : Rule Atom}, r.Meets (a.symbols ++ ss) ss (· = b) → b.unplaced = a.unplaced →
      r.Meets (a.symbols ++ ss) ss (·.unplaced = a.unplaced) := fun hr hb => hr.mono fun _ h => h ▸ hb
  cases a with
  | literal =>
    rw [Atom.symbols]
    exact .firstOf_head (Meets.string.bind_eq (.pure rfl))
  | parens => exact hword rfl (parensAtom_reads hbodies)
  | set x => exact hword rfl (setAtom_reads hgrammatical (hset x rfl))
  | range => exact hword rfl (hsame rangeAtom_reads rfl)
  | group => exact hword rfl (groupAtom_reads hbodies)
  | leaf => exact hword rfl (hsame leafAtom_reads rfl)
  | backref => exact hword rfl (hsame (backrefAtom_reads hgrammatical) rfl)
  | cond => exact hword rfl (condAtom_reads hgrammatical hbodies)
  | modify => exact hword rfl (modifyAtom_reads hbodies)
  | cls which | anchor which =>
    refine hword rfl ?_
    rw [Atom.symbols]
    exact (Meets.oneWord (by cases which <;> decide) (by decide)).bind_eq (.pure rfl)
  | ref x => exact hsame (refAtom_reads ((href x rfl).ne (by decide +kernel))) rfl

end

/-! ### Terms -/

/-- Something stands first, and it is no integer. -/
def LacksInt (ss : List Symbol) : Prop := ∃ s ss', ss = s :: ss' ∧ s.kind ≠ .int

/-- What follows the term does not go on with it. -/
def Term.Precedes (t : Term) (ss : List Symbol) : Prop :=
  match t.quantifier with
  | none => ∃ s ss', ss = s :: ss' ∧ (∀ w ∈ countMarks, ¬ s.HasValue w) ∧
      (s.HasValue "\x7b" → LacksInt ss')
  | some q => q.isLazy = false → Lacks "lazy" ss

section

variable {sequence : Rule Sequence} {ss after : List Symbol} {ts rest : List Token}

theorem Atom.symbols_ne_nil (a : Atom) : a.symbols ≠ [] := by
  cases a with
  | cond =>
    rw [symbols_cond]
    exact cons_ne_nil _ _
  | _ =>
    rw [Atom.symbols]
    exact cons_ne_nil _ _

variable {t : Term} {s : List Term}

/-- **A term is read,** if its atom is and what follows does not go on with the term. -/
theorem term_reads (ha : ReadsAtom sequence t.atom) (hcount : ∀ q ∈ t.quantifier, q.count.IsFilled)
    (hafter : t.Precedes after) :
    (term sequence).Meets (t.symbols ++ after) after (·.unplaced = t.unplaced) := by
  obtain ⟨place, a, q⟩ := t
  rw [Term.symbols, append_assoc]
  have hquantifier : (Rule.option quantifier).Meets (optionSymbols Quantifier.symbols q ++ after) after (· = q) := by
    cases q with
    | none =>
      obtain ⟨s, ss, rfl, hmarks, hbraces⟩ := hafter
      exact .option_none rfl fun _ _ h => quantifier_stops h hmarks hbraces
    | some q => exact .option_eq (quantifier_reads (hcount q rfl) hafter)
  refine .placed (append_ne_nil_of_left_ne_nil a.symbols_ne_nil _) fun pos =>
    (@ha _).bind fun a' (hsame : a'.unplaced = a.unplaced) => hquantifier.bind_eq (.pure ?_)
  rw [Term.unplaced, Term.unplaced, hsame]

/-- The words that go on with a term. -/
def quantifierWords : List Text := "\x7b" :: "lazy" :: countMarks

theorem Term.precedes_of_lacks {s : Symbol} (hs : ∀ w ∈ quantifierWords, ¬ s.HasValue w) : t.Precedes (s :: ss) := by
  obtain ⟨hbrace, hs⟩ := forall_mem_cons.1 hs
  obtain ⟨hlazy, hmarks⟩ := forall_mem_cons.1 hs
  unfold Precedes
  split
  · exact ⟨s, ss, rfl, hmarks, fun h => absurd h hbrace⟩
  · exact fun _ => ⟨s, ss, rfl, hlazy⟩

/-- A string that is not swallowed does not go on with the term. -/
theorem Term.precedes_string {v : Text} (hv : ¬ t.Swallows v) (hss : LacksInt ss) : t.Precedes (.string v :: ss) := by
  cases hq : t.quantifier with
  | none =>
    rw [Swallows, hq] at hv
    rw [Precedes, hq]
    exact ⟨_, _, rfl, fun w hw h => hv (h ▸ hw), fun _ => hss⟩
  | some =>
    rw [Swallows, hq] at hv
    rw [Precedes, hq]
    exact fun hlazy => ⟨_, _, rfl, fun h => hv ⟨hlazy, h.symm⟩⟩

/-- What may follow a sequence does not go on with a term. -/
theorem Term.precedes_end (t : Term) (hafter : Begins sequenceEnds after) : t.Precedes after := by
  have hwords : ∀ w' ∈ sequenceEnds, ∀ w ∈ quantifierWords, w ≠ w' := by decide
  obtain ⟨w, hw, ss, rfl⟩ := hafter
  exact t.precedes_of_lacks (hwords w hw)

/-- An atom begins with a string, or with what does not go on with a term. -/
theorem Atom.symbols_cases {a : Atom} (href : ∀ x, a = .ref x → IsName x) :
    (∃ v, a = .literal v) ∨ ∃ s ss, a.symbols = s :: ss ∧ s.kind ≠ .int ∧
      ∀ w ∈ quantifierWords, ¬ s.HasValue w := by
  have hwords : ∀ w' ∈ atomWords.flatten, ∀ w ∈ quantifierWords, w ≠ w' := by decide +kernel
  rcases a.exists_word with hliteral | ⟨x, rfl⟩ | ⟨w, ss, ws, hss, hws, hw⟩
  · exact .inl hliteral
  · exact .inr ⟨.ident x, [], by rw [Atom.symbols], nofun, (href x rfl).ne (by decide)⟩
  · exact .inr ⟨.word w, ss, hss, kind_word_ne_int w, hwords w (mem_flatten_of_mem (mem_of_getElem? hws) hw)⟩

theorem lacksInt_terms (href : ∀ t ∈ s, ∀ x, t.atom = .ref x → IsName x) (hafter : Begins sequenceEnds after) :
    LacksInt (sequenceSymbols s ++ after) := by
  cases s with
  | nil =>
    obtain ⟨w, -, ss, rfl⟩ := hafter
    exact ⟨_, _, rfl, kind_word_ne_int w⟩
  | cons t s =>
    obtain ⟨place, a, q⟩ := t
    rw [sequenceSymbols, Term.symbols]
    rcases Atom.symbols_cases (href _ mem_cons_self) with ⟨v, hv⟩ | ⟨s', ss, hss, hkind, -⟩
    · obtain rfl : a = .literal v := hv
      rw [Atom.symbols]
      exact ⟨.string v, _, rfl, nofun⟩
    · rw [show a.symbols = s' :: ss from hss]
      exact ⟨s', _, rfl, hkind⟩

theorem lacksInt_quantifier (q : Option Quantifier) (hss : LacksInt ss) :
    LacksInt (optionSymbols Quantifier.symbols q ++ ss) := by
  cases q with
  | none => exact hss
  | some q =>
    obtain ⟨⟨mark, min, comma, max⟩, isLazy⟩ := q
    cases mark <;> exact ⟨_, _, rfl, kind_word_ne_int _⟩

/-- The next term does not go on with a term that does not swallow it. -/
theorem Term.precedes_terms {next : Term} (hnext : ∀ v, next.atom = .literal v → ¬ t.Swallows v)
    (href : ∀ u ∈ next :: s, ∀ x, u.atom = .ref x → IsName x) (hafter : Begins sequenceEnds after) :
    t.Precedes (sequenceSymbols (next :: s) ++ after) := by
  obtain ⟨place, a, q⟩ := next
  obtain ⟨ha, hrefs⟩ := forall_mem_cons.1 href
  simp only [sequenceSymbols, Term.symbols, append_assoc]
  rcases Atom.symbols_cases ha with ⟨v, hv⟩ | ⟨s', ss, hss, -, hs'⟩
  · obtain rfl : a = .literal v := hv
    rw [Atom.symbols]
    exact precedes_string (hnext v rfl) (lacksInt_quantifier q (lacksInt_terms hrefs hafter))
  · rw [show a.symbols = s' :: ss from hss]
    exact t.precedes_of_lacks hs'

/-! ### Sequences -/

theorem Term.symbols_ne_nil (t : Term) : t.symbols ≠ [] := by
  obtain ⟨place, a, q⟩ := t
  rw [Term.symbols]
  exact append_ne_nil_of_left_ne_nil a.symbols_ne_nil _

theorem length_le_sequenceSymbols (s : List Term) : s.length ≤ (sequenceSymbols s).length := by
  rw [sequenceSymbols_eq]
  exact length_le_flatMap fun t _ => t.symbols_ne_nil

theorem term_stops (hafter : Begins sequenceEnds after) (h : Spells after ts rest) : (term sequence).Stops ts := by
  obtain ⟨w, hw, ss, rfl⟩ := hafter
  obtain ⟨pos, hpos⟩ := exists_placed_eq (cons_ne_nil _ _) h
  unfold Stops
  rw [term, hpos]
  exact stops_bind (atom_stops hw h)

/-- **A sequence is read** term by term. -/
theorem sequence_reads (hne : s ≠ []) (hatoms : ∀ t ∈ s, ReadsAtom sequence t.atom)
    (hcounts : ∀ t ∈ s, ∀ q ∈ t.quantifier, q.count.IsFilled)
    (hchain : s.IsChain fun t next => ∀ v, next.atom = .literal v → ¬ t.Swallows v)
    (href : ∀ t ∈ s, ∀ x, t.atom = .ref x → IsName x) : ReadsSequence (many1 (term sequence)) s := by
  intro after hafter
  simp only [sequenceSymbols_eq, unplacedTerms_eq]
  refine (Meets.repeats (fun t _ => t.symbols_ne_nil) (fun _ _ => term_stops hafter) fun t s' hsuffix => ?_).many1 hne
  have hmem := hsuffix.subset
  rw [← sequenceSymbols_eq]
  refine term_reads (hatoms t (hmem mem_cons_self)) (hcounts t (hmem mem_cons_self)) ?_
  cases s' with
  | nil => exact t.precedes_end hafter
  | cons =>
    exact Term.precedes_terms (isChain_cons_cons.1 (hchain.suffix hsuffix)).1
      (fun u hu => href u (hmem (mem_cons_of_mem t hu))) hafter

end

end RegexBuilder.Description
