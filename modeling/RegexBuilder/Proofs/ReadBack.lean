/-
# Reading inverts writing

What is read from the symbols of a description, laid out with blanks and comments in between, is the same
description up to places if and only if no string of it is taken for a word and no string has stray bytes
(`parse_layOut_iff`). In the other direction, the symbols of what is read from any text are those of the text, but
for words written as strings.
-/

import RegexBuilder.Proofs.Readable

namespace RegexBuilder.Description

open List

open Description.Rule

/-! ### Nesting -/

/-- The expression is read, those inside it apart. -/
structure Expr.IsReadable (e : List (List Term)) : Prop where
  grammatical : Expr.IsGrammatical e
  unmistakable : ∀ s ∈ e, Sequence.IsUnmistakable s
  refs : ∀ s ∈ e, ∀ t ∈ s, ∀ x, t.atom = .ref x → IsName x

/-- The symbols of a sequence stand together among those of its expression. -/
theorem sequenceSymbols_isInfix {e : List (List Term)} {s : List Term} (hs : s ∈ e) :
    sequenceSymbols s <:+: exprSymbols e := by
  cases e with
  | nil => cases hs
  | cons s' e =>
    rw [exprSymbols]
    rcases mem_cons.1 hs with rfl | hs
    · exact (prefix_append ..).isInfix
    · have hbranch : Symbol.word "|" :: sequenceSymbols s <:+: branchSymbols e := by
        rw [branchSymbols_eq]
        exact infix_of_mem_flatten (mem_map_of_mem hs)
      exact ((suffix_cons ..).isInfix.trans hbranch).trans (suffix_append ..).isInfix

/-- A term has no more symbols than its sequence. -/
theorem length_term_le {s : List Term} {t : Term} (ht : t ∈ s) : t.symbols.length ≤ (sequenceSymbols s).length := by
  rw [sequenceSymbols_eq]
  exact length_le_of_mem ht

/-- Every level of nesting takes a symbol of its own. -/
theorem length_body_lt {a : Atom} {b : Expr} (hb : b ∈ a.bodies) : (exprSymbols b).length < a.symbols.length := by
  cases a with
  | parens | group | modify =>
    obtain rfl := mem_singleton.1 hb
    simp only [Atom.symbols, length_append, length_cons]
    omega
  | cond =>
    rw [symbols_cond]
    simp only [length_append, length_cons]
    rcases mem_cons.1 hb with rfl | hb
    · omega
    · obtain rfl := Option.mem_toList.1 hb
      simp only [otherwiseSymbols, optionSymbols, length_cons]
      omega
  | _ => cases hb

/-- **Sequences are read,** however deep they are nested. -/
theorem sequenceTo_reads (depth : Nat) {e : Expr} (he : Everywhere Expr.IsReadable e) {s : Sequence}
    (hs : s ∈ e) (hdepth : (sequenceSymbols s).length ≤ depth) : ReadsSequence (sequenceTo depth) s := by
  induction depth generalizing e s with
  | zero =>
    have hne := ((everywhere_iff.1 he).1.grammatical.2 s hs).1
    have hlength := length_le_sequenceSymbols s
    exact absurd (eq_nil_of_length_eq_zero (by omega)) hne
  | succ depth ih =>
    obtain ⟨hread, hbodies⟩ := everywhere_iff.1 he
    obtain ⟨hne, hgrammatical⟩ := hread.grammatical.2 s hs
    have hs' := hread.unmistakable s hs
    refine sequence_reads hne (fun t ht => ?_) (fun t ht => (hgrammatical t ht).count) hs'.terms (hread.refs s hs)
    refine readsAtom (fun b hb => ?_) (hgrammatical t ht).atom (hs'.sets t ht) (hread.refs s hs t ht)
    have hb' := hbodies s hs t ht b hb
    refine ⟨(everywhere_iff.1 hb').1.grammatical.1, fun s' hs' => ih hb' hs' ?_⟩
    have hterm := length_term_le ht
    have hbody := length_body_lt hb
    have hsequence := (sequenceSymbols_isInfix hs').length_le
    have hatom : t.atom.symbols.length ≤ t.symbols.length := by
      obtain ⟨place, a, q⟩ := t
      rw [Term.symbols, length_append]
      exact Nat.le_add_right _ _
    omega

/-! ### Files -/

section

variable {after : List Symbol} {ts rest : List Token} {depth : Nat} {e : Token}

/-- **A definition is read,** if the bound on the nesting is not below the number of its symbols. -/
theorem definition_reads {d : Definition} (hd : Everywhere Expr.IsReadable d.expr) (hdepth : d.symbols.length ≤ depth) :
    (definition depth).Meets (d.symbols ++ after) after (·.unplaced = d.unplaced) := by
  simp only [Definition.symbols, cons_append, append_assoc, List.nil_append]
  have hlength : (exprSymbols d.expr).length ≤ depth := by
    simp only [Definition.symbols, length_append] at hdepth
    omega
  have hexpr := expression_reads (everywhere_iff.1 hd).1.grammatical.1
    (fun s hs => sequenceTo_reads depth hd hs ((sequenceSymbols_isInfix hs).length_le.trans hlength))
    (begins_word (w := ";") (by decide) after)
  refine .placed (cons_ne_nil _ _) fun pos => .word_bind fun _ => Meets.ident.bind_eq <|
    .word_bind fun _ => hexpr.bind fun e hsame => .word_bind fun _ => .pure ?_
  rw [Definition.unplaced, Definition.unplaced, hsame]

/-- At the end there is no definition. -/
theorem definition_noMatch (he : e.kind = .eof) : definition depth [e] = .noMatch := by
  refine noMatch_bind (k := _) (noMatch_word_of_forall ?_)
  rintro t us ⟨⟩ hkind
  exact absurd he hkind

/-- **The definitions of a file are read** up to its end. -/
theorem definitionsTo_reads {bound : Nat} {ds : List Definition} (he : e.kind = .eof)
    (hds : ∀ d ∈ ds, Everywhere Expr.IsReadable d.expr ∧ d.symbols.length ≤ depth) (hbound : ds.length ≤ bound)
    (h : Spells (symbols ds) ts [e]) : ∃ ds', definitionsTo depth bound ts = .ok ds' ∧ unplaced ds' = unplaced ds := by
  induction ds generalizing bound ts with
  | nil =>
    obtain ⟨_, rfl, ⟨⟩⟩ := h
    cases bound with
    | zero => exact ⟨[], rfl, rfl⟩
    | succ =>
      refine ⟨[], ?_, rfl⟩
      simp only [List.nil_append, definitionsTo, definition_noMatch he, if_pos he]
  | cons d ds ih =>
    obtain ⟨⟨hd, hdepth⟩, hds⟩ := forall_mem_cons.1 hds
    obtain ⟨bound, rfl⟩ : ∃ b, bound = b + 1 := ⟨bound - 1, by rw [length_cons] at hbound; omega⟩
    obtain ⟨d', mid, hd', hsame, h⟩ := definition_reads hd hdepth h
    obtain ⟨ds', hds', hsames⟩ := ih hds (Nat.le_of_succ_le_succ hbound) h
    refine ⟨d' :: ds', ?_, ?_⟩
    · simp only [definitionsTo, hd']
      exact bind_eq_ok.2 ⟨ds', hds', rfl⟩
    · rw [unplaced, map_cons, hsame]
      exact congrArg (d.unplaced :: ·) hsames

end

/-! ### Symbols that can be written -/

/-- A word is an identifier or a mark. -/
@[simp] def Symbol.IsLexeme : Symbol → Prop
  | word w => IsWordText w
  | string _ | int _ | ident _ => True

instance (s : Symbol) : Decidable s.IsLexeme :=
  match s with
  | .word w => inferInstanceAs (Decidable (IsWordText w))
  | .string _ | .int _ | .ident _ => inferInstanceAs (Decidable True)

/-- All words among the symbols are identifiers or marks. -/
def AreLexemes (ss : List Symbol) : Prop := ∀ s ∈ ss, s.IsLexeme

instance (ss : List Symbol) : Decidable (AreLexemes ss) :=
  inferInstanceAs (Decidable (∀ s ∈ ss, s.IsLexeme))

section

variable {ss ss' : List Symbol} {s : Symbol}

@[simp] theorem areLexemes_nil : AreLexemes [] := nofun

@[simp] theorem areLexemes_cons : AreLexemes (s :: ss) ↔ s.IsLexeme ∧ AreLexemes ss :=
  forall_mem_cons

@[simp] theorem areLexemes_append : AreLexemes (ss ++ ss') ↔ AreLexemes ss ∧ AreLexemes ss' :=
  forall_mem_append

end

@[simp] theorem Number.areLexemes (x : Number) : AreLexemes x.symbols := by
  cases hx : x.negative <;> simp +decide [symbols, hx]

/-- What may be left out has words as it has if it is not. -/
theorem areLexemes_option {α : Type} {f : α → List Symbol} (hf : ∀ a, AreLexemes (f a)) (o : Option α) :
    AreLexemes (optionSymbols f o) := by
  cases o with
  | none => exact areLexemes_nil
  | some a => exact hf a

@[simp] theorem areLexemes_int (o : Option Nat) : AreLexemes (optionSymbols (fun n => [.int n]) o) :=
  areLexemes_option (fun n => by simp) o

@[simp] theorem Count.areLexemes (c : Count) : AreLexemes c.symbols := by
  obtain ⟨mark, min, comma, max⟩ := c
  cases mark with
  | none => cases comma <;> simp +decide [symbols]
  | some m => cases m <;> simp +decide [symbols]

@[simp] theorem Quantifier.areLexemes (q : Quantifier) : AreLexemes q.symbols := by
  cases hq : q.isLazy <;> simp +decide [symbols, hq]

@[simp] theorem SetItem.areLexemes (i : SetItem) : AreLexemes i.symbols := by
  simp only [symbols, areLexemes_append]
  refine ⟨⟨⟨?_, ?_⟩, ?_⟩, ?_⟩
  · exact areLexemes_option (fun text => by simp) _
  · exact areLexemes_option (fun text => by simp +decide) _
  · exact areLexemes_option (fun name => by simp +decide) _
  · exact areLexemes_option (fun which => by cases which <;> decide) _

@[simp] theorem areLexemes_items (items : List PlacedItem) : AreLexemes (itemSymbols items) := by
  intro s hs
  obtain ⟨i, -, hs⟩ := mem_flatMap.1 hs
  exact i.item.areLexemes s hs

@[simp] theorem SetExpr.areLexemes (x : SetExpr) : AreLexemes x.symbols := by
  cases hx : x.negated <;> by_cases hnil : x.except = [] <;> simp +decide [symbols, hx, hnil]

@[simp] theorem GroupLabel.areLexemes (l : GroupLabel) : AreLexemes l.symbols := by
  by_cases hname : l.name = [] <;> by_cases hother : l.other = [] <;>
    simp +decide [symbols, hname, hother]

@[simp] theorem GroupRef.areLexemes (x : GroupRef) : AreLexemes x.symbols := by
  rw [symbols, areLexemes_append]
  exact ⟨areLexemes_int _, areLexemes_option (fun name => by simp) _⟩

@[simp] theorem areLexemes_zeros (z : Option ZerosWord) : AreLexemes (zerosSymbols z) := by
  cases z with
  | none => exact areLexemes_nil
  | some w => cases w <;> decide

mutual

theorem Atom.areLexemes : ∀ a : Atom, AreLexemes a.symbols
  | .parens body | .modify _ body => by simp +decide [Atom.symbols, areLexemes_expr body]
  | .group which label body => by
    have hword : IsWordText which.spelling := by cases which <;> decide
    simp +decide [Atom.symbols, hword, areLexemes_option GroupLabel.areLexemes, areLexemes_expr body]
  | .cond x yes none => by simp +decide [Atom.symbols, areLexemes_expr yes]
  | .cond x yes (some no) => by simp +decide [Atom.symbols, areLexemes_expr yes, areLexemes_expr no]
  | .leaf which _ | .cls which | .anchor which => by
    have hword : IsWordText which.spelling := by cases which <;> decide
    simp +decide [Atom.symbols, hword]
  | .literal _ | .set _ | .range _ _ _ | .backref _ | .ref _ => by simp +decide [Atom.symbols]

theorem Term.areLexemes : ∀ t : Term, AreLexemes t.symbols
  | .mk _ a q => by simp [Term.symbols, a.areLexemes, areLexemes_option Quantifier.areLexemes]

theorem areLexemes_sequence : ∀ s : List Term, AreLexemes (sequenceSymbols s)
  | [] => areLexemes_nil
  | t :: s => by simp [sequenceSymbols, t.areLexemes, areLexemes_sequence s]

theorem areLexemes_branches : ∀ e : List (List Term), AreLexemes (branchSymbols e)
  | [] => areLexemes_nil
  | s :: e => by simp +decide [branchSymbols, areLexemes_sequence s, areLexemes_branches e]

/-- Every word of an expression is an identifier or a mark. -/
theorem areLexemes_expr : ∀ e : List (List Term), AreLexemes (exprSymbols e)
  | [] => areLexemes_nil
  | s :: e => by simp [exprSymbols, areLexemes_sequence s, areLexemes_branches e]

end

/-- **Every word of a description is an identifier or a mark.** -/
theorem areLexemes_symbols (ds : List Definition) : AreLexemes (symbols ds) := by
  intro s hs
  obtain ⟨d, -, hs⟩ := mem_flatMap.1 hs
  have hd : AreLexemes d.symbols := by simp +decide [Definition.symbols, areLexemes_expr d.expr]
  exact hd s hs

/-- A word is no integer. -/
theorem IsWordText.exists_not_digit {w : Text} (h : IsWordText w) : ∃ g ∈ w, g.isDigit = false := by
  rcases h with hw | ⟨g, rfl, hpunct⟩
  · cases w with
    | nil => cases hw
    | cons g w =>
      have hg : isIdentStart g = true := (Bool.and_eq_true_iff.1 hw).1
      cases g with
      | stray => cases hg
      | char => exact ⟨_, mem_cons_self, isDigit_of_isIdentStart hg⟩
  · exact ⟨g, mem_singleton.2 rfl, (classes_of_isPunct hpunct).2.2.1⟩

/-! ### Reading back -/

/-- The grammar has the definitions: no reference is a keyword, names are identifiers, integers are not too large,
nothing is empty, and fields are set as one form of the grammar sets them. -/
structure IsWellFormed (ds : List Definition) : Prop where
  refs : ∀ d ∈ ds, ∀ x ∈ refsOf (sequenceAtoms (fun _ => false) d.expr), IsName x
  idents : ∀ x, .ident x ∈ symbols ds → isIdentifier x = true
  ints : ∀ n, .int n ∈ symbols ds → n < 0x8000000000000000
  grammatical : ∀ d ∈ ds, Everywhere Expr.IsGrammatical d.expr

/-- No string of the definitions is taken for a word, and none has stray bytes. -/
structure IsUnmistakable (ds : List Definition) : Prop where
  strings : ∀ v, .string v ∈ symbols ds → v.isValid = true
  sequences : ∀ d ∈ ds, Everywhere (fun e => ∀ s ∈ e, Sequence.IsUnmistakable s) d.expr

section

variable {ds ds' : List Definition} {file src lead : Text} {parts : List (Symbol × Text)}

/-- Well-formed definitions whose strings are not mistaken can be read. -/
theorem everywhere_isReadable (hds : IsWellFormed ds) (hunmistakable : IsUnmistakable ds)
    {d : Definition} (hd : d ∈ ds) : Everywhere Expr.IsReadable d.expr := by
  intro e he
  refine ⟨hds.grammatical d hd e he, hunmistakable.sequences d hd e he, fun s hs t ht x hx => ?_⟩
  have hmem := mem_sequenceAtoms_of_mem_exprs he hs ht
  exact hds.refs d hd x (mem_refsOf.2 (hx ▸ hmem))

/-- **Tokens that spell definitions are read,** if no string is mistaken. -/
theorem exists_parse_of_tokens (hds : IsWellFormed ds) (hunmistakable : IsUnmistakable ds)
    {ts : List Token} {e : Token} (hts : tokens file src = .ok (ts ++ [e])) (he : e.kind = .eof)
    (hwrites : Forall₂ (Token.Writes IsWordKind) ts (symbols ds)) :
    ∃ ds', parse file src = .ok ds' ∧ unplaced ds' = unplaced ds := by
  have hspells : Spells (symbols ds) (ts ++ [e]) [e] := ⟨ts, rfl, hwrites⟩
  have hlength := hspells.length_eq
  have hle : ds.length ≤ (symbols ds).length := length_le_flatMap fun d _ => cons_ne_nil _ _
  obtain ⟨ds', hds', hsame⟩ : ∃ ds', definitionsTo (ts ++ [e]).length (ts ++ [e]).length
      (ts ++ [e]) = .ok ds' ∧ unplaced ds' = unplaced ds := by
    refine definitionsTo_reads he (fun d hd => ⟨everywhere_isReadable hds hunmistakable hd, ?_⟩) ?_ hspells
    · have hd : d.symbols.length ≤ (symbols ds).length := length_le_of_mem hd
      omega
    · omega
  exact ⟨ds', bind_eq_ok.2 ⟨_, hts, hds'⟩, hsame⟩

/-- **What is laid out is read back,** if no string is mistaken. -/
theorem exists_parse_layOut (hds : IsWellFormed ds) (hunmistakable : IsUnmistakable ds)
    (hlayout : IsLayout lead parts) (hparts : parts.map Prod.fst = symbols ds) (file : Text) :
    ∃ ds', parse file (layOut lead parts) = .ok ds' ∧ unplaced ds' = unplaced ds := by
  have hwritable : ∀ p ∈ parts, p.1.IsWritable := by
    rintro ⟨s, gap⟩ hp
    have hs : s ∈ symbols ds := hparts ▸ mem_map_of_mem hp
    cases s with
    | string v => exact hunmistakable.strings v hs
    | int n => exact hds.ints n hs
    | ident x => exact hds.idents x hs
    | word => exact areLexemes_symbols ds _ hs
  obtain ⟨ts, e, hts, he, hwrites⟩ := tokens_layOut hlayout hwritable file
  exact exists_parse_of_tokens hds hunmistakable hts he (hparts ▸ hwrites)

/-- **Only definitions whose strings are not mistaken are read.** -/
theorem isUnmistakable_of_parse (h : parse file src = .ok ds') (hsame : unplaced ds' = unplaced ds) :
    IsUnmistakable ds := by
  obtain ⟨ts, e, -, -, hwrites, hlexed, hread⟩ := parse_reads h
  constructor
  · intro v hv
    rw [← symbols_unplaced, ← hsame, symbols_unplaced] at hv
    obtain ⟨t, ht, hkind, rfl⟩ := exists_mem_of_forall₂ hwrites.flip hv
    have hholds : t.kind.Holds t.value := hlexed t ht
    rwa [hkind] at hholds
  · intro d hd
    have hd : d.unplaced ∈ unplaced ds' := hsame ▸ mem_map_of_mem hd
    obtain ⟨d', hd', hdd'⟩ := mem_map.1 hd
    have hP : ∀ e, (∀ s ∈ unplacedSequences e, Sequence.IsUnmistakable s) ↔
        ∀ s ∈ e, Sequence.IsUnmistakable s := by
      intro e
      simp only [unplacedSequences_eq, forall_mem_map, Sequence.isUnmistakable_unplaced]
    rw [← everywhere_unplaced hP]
    have hexpr : unplacedSequences d'.expr = unplacedSequences d.expr := congrArg Definition.expr hdd'
    rw [← hexpr, everywhere_unplaced hP]
    exact fun e he => (hread d' hd' e he).2

/-- A word is read from the word itself, or from a string of the same value. -/
def IsReadKind (w : Text) (k : TokenKind) : Prop := k = wordKind w ∨ k = .string

/-- No token of digits is a word. -/
theorem writes_isReadKind {t : Token} {s : Symbol} (ht : t.IsLexed) (hs : s.IsLexeme)
    (h : t.Writes IsKind s) : t.Writes IsReadKind s := by
  cases s with
  | string | int | ident => exact h
  | word =>
    obtain ⟨hkind, rfl⟩ := h
    refine ⟨?_, rfl⟩
    unfold IsReadKind
    unfold Token.IsLexed at ht
    cases hk : t.kind with
    | string => exact .inr rfl
    | ident =>
      rw [hk] at ht
      exact .inl (if_pos ht).symm
    | punct =>
      rw [hk] at ht
      obtain ⟨g, hg, hpunct⟩ := ht
      exact .inl (hg ▸ wordKind_of_isPunct hpunct).symm
    | int =>
      rw [hk] at ht
      obtain ⟨g, hg, hdigit⟩ := IsWordText.exists_not_digit hs
      exact absurd (ht g hg) (Bool.eq_false_iff.1 hdigit)
    | eof => exact absurd hk hkind

/-- **The symbols of what is read are those of the text.** -/
theorem writes_of_parse (h : parse file src = .ok ds) : ∃ ts e, tokens file src = .ok (ts ++ [e]) ∧ e.kind = .eof ∧
    Forall₂ (Token.Writes IsReadKind) ts (symbols ds) := by
  obtain ⟨ts, e, hts, he, hwrites, hlexed, -⟩ := parse_reads h
  refine ⟨ts, e, hts, he, ?_⟩
  have hlexemes := areLexemes_symbols ds
  clear h hts
  generalize symbols ds = ss at hwrites hlexemes
  induction hwrites with
  | nil => exact .nil
  | cons hwrite _ ih =>
    obtain ⟨ht, hlexed⟩ := forall_mem_cons.1 hlexed
    obtain ⟨hs, hlexemes⟩ := areLexemes_cons.1 hlexemes
    exact .cons (writes_isReadKind ht hs hwrite) (ih hlexed hlexemes)

end

/-- **Reading inverts writing, but for strings that are mistaken.** Definitions that the grammar has are
read back from their symbols, up to places and whatever stands between the symbols, if and only if no
string of them is taken for a word and none has stray bytes. What is read from any text has the
symbols of the text in their order, where a word may have been written as a string. -/
theorem parse_layOut_iff (file : Text) :
    (∀ ds, IsWellFormed ds → ∀ lead parts, IsLayout lead parts → parts.map Prod.fst = symbols ds →
      ((∃ ds', parse file (layOut lead parts) = .ok ds' ∧ unplaced ds' = unplaced ds) ↔
        IsUnmistakable ds)) ∧
    ∀ src ds, parse file src = .ok ds →
      ∃ ts e, tokens file src = .ok (ts ++ [e]) ∧ e.kind = .eof ∧
        Forall₂ (Token.Writes IsReadKind) ts (symbols ds) := by
  refine ⟨fun ds hds lead parts hlayout hparts => ⟨?_, ?_⟩, fun src ds => writes_of_parse⟩
  · rintro ⟨ds', hparse, hsame⟩
    exact isUnmistakable_of_parse hparse hsame
  · exact fun hunmistakable => exists_parse_layOut hds hunmistakable hlayout hparts file

/-- The symbols of definitions with the same gap behind each. -/
def spaced (gap : Text) (ds : List Definition) : List (Symbol × Text) :=
  (symbols ds).map fun s => (s, gap)

/-- Blanks and comments between all symbols are a layout. -/
theorem isLayout_spaced {gap : Text} (hgap : IsMix gap) (hne : gap ≠ []) (ds : List Definition) :
    IsLayout [] (spaced gap ds) := by
  refine ⟨.nil, fun p hp => ?_, fun p hp => ?_⟩
  · obtain ⟨s, -, rfl⟩ := mem_map.1 hp
    exact hgap
  · obtain ⟨s, -, rfl⟩ := mem_map.1 (dropLast_subset _ hp)
    exact hne

/-- `A` is the string `a` with the quantifier `q`, and then the string `*`. -/
def beforeStar (q : Option Quantifier) : List Definition :=
  [⟨nowhere, "A", [[.mk nowhere (.literal "a") q, .mk nowhere (.literal "*") none]]⟩]

/-- The grammar has both definitions. -/
theorem isWellFormed_beforeStar {q : Option Quantifier} (hq : q ∈ [none, some ⟨.star, false⟩]) :
    IsWellFormed (beforeStar q) := by
  have hsymbols : ∀ q ∈ [none, some ⟨.star, false⟩], ∀ s ∈ symbols (beforeStar q),
      (match s with
      | .ident x => isIdentifier x
      | .int _ => false
      | _ => true) = true := by decide +kernel
  refine ⟨forall_mem_singleton.2 fun x hx => ?_, fun x hx => hsymbols q hq _ hx,
    fun n hn => (nomatch hsymbols q hq _ hn), forall_mem_singleton.2 fun e he => ?_⟩
  · rcases mem_pair.1 hq with rfl | rfl <;> exact nomatch hx
  · have hcount : ∀ q' ∈ q, q'.count.IsFilled := by
      rintro q' rfl
      have hstar : q' = ⟨.star, false⟩ := by simpa using hq
      exact hstar ▸ .marked .star
    have hexpr : Expr.IsGrammatical [[.mk nowhere (.literal "a") q, .mk nowhere (.literal "*") none]] :=
      ⟨cons_ne_nil _ _, forall_mem_singleton.2 ⟨cons_ne_nil _ _,
        forall_mem_cons.2 ⟨⟨trivial, hcount⟩, forall_mem_singleton.2 ⟨trivial, nofun⟩⟩⟩⟩
    rcases mem_pair.1 hq with rfl | rfl <;> exact mem_singleton.1 he ▸ hexpr

/-- Behind a quantifier the string `*` is read back, also with a comment between all symbols. -/
theorem parse_layOut_iff_quantified : IsWellFormed (beforeStar (some ⟨.star, false⟩)) ∧
    ∃ ds', parse [] (layOut [] (spaced " //\n" (beforeStar (some ⟨.star, false⟩)))) = .ok ds' ∧
      unplaced ds' = unplaced (beforeStar (some ⟨.star, false⟩)) := by
  have hds := isWellFormed_beforeStar (q := some ⟨.star, false⟩) (by decide)
  have hgap : IsMix " //\n" := .blank rfl (@IsMix.comment [] [] nofun .nil)
  have hlayout := isLayout_spaced hgap (by decide) (beforeStar (some ⟨.star, false⟩))
  refine ⟨hds, ((parse_layOut_iff []).1 _ hds [] _ hlayout ?_).2 ⟨?_, ?_⟩⟩
  · rw [spaced, map_map]
    exact map_id _
  · have hsymbols : ∀ s ∈ symbols (beforeStar (some ⟨.star, false⟩)),
        (match s with
        | .string v => v.isValid
        | _ => true) = true := by decide +kernel
    exact fun v hv => hsymbols _ hv
  · refine forall_mem_singleton.2 fun e he => ?_
    obtain rfl := mem_singleton.1 he
    refine forall_mem_singleton.2 ⟨?_, ?_⟩
    · refine .cons_cons (fun v hv hswallows => ?_) (.singleton _)
      cases hv
      exact absurd hswallows.2 (by decide)
    · exact forall_mem_cons.2 ⟨nofun, forall_mem_singleton.2 nofun⟩

/-- **A string right behind a term is taken for its quantifier.** -/
theorem star_taken_for_quantifier : IsWellFormed (beforeStar none) ∧
    IsLayout [] (spaced " " (beforeStar none)) ∧
    ∃ ds', parse [] (layOut [] (spaced " " (beforeStar none))) = .ok ds' ∧
      symbols ds' = [.word "pattern", .ident "A", .word "=", .string "a", .word "*", .word ";"] ∧
      unplaced ds' ≠ unplaced (beforeStar none) := by
  have hgap : IsMix " " := .blank rfl .nil
  refine ⟨isWellFormed_beforeStar (by decide), isLayout_spaced hgap (by decide) _, ?_⟩
  have hsymbols : (parse [] (layOut [] (spaced " " (beforeStar none)))).toOption.map symbols =
      some [.word "pattern", .ident "A", .word "=", .string "a", .word "*", .word ";"] := by
    decide +kernel
  obtain ⟨ds', hparse, hds'⟩ := Option.map_eq_some_iff.1 hsymbols
  refine ⟨ds', toOption_eq_some.1 hparse, hds', fun hsame => ?_⟩
  have hsame := congrArg symbols hsame
  rw [symbols_unplaced, symbols_unplaced, hds'] at hsame
  exact absurd hsame (by decide)

end RegexBuilder.Description
