/-
# Which integers a description can say

The digits of an integer are read apart from its sign, and they must be less than `2 ^ 63`. So a description can say
every integer of 64 bits but the least one (`loadsRange_iff`): the file is read by its symbols (`Proofs.ReadBack`),
and the range has a text (`Proofs.NumericRange`).
-/

import RegexBuilder.Proofs.NumericRange
import RegexBuilder.Proofs.ReadBack

namespace RegexBuilder

open List

/-! ### Groups and trees -/

/-- **A group is written as its child is.** -/
theorem Graph.render_group {g : Graph} (hg : g.IsTidy) {i : NodeId} {c : Ref}
    (hi : g.node? i = some (.group c)) (hacyclic : ¬ g.HasCycleFrom (some i)) : g.render (some i) = g.render c := by
  have hc : ¬ g.HasCycleFrom c := fun h =>
    hacyclic (h.of_below (below_of_mem_refs hi (mem_singleton.2 rfl)))
  obtain ⟨hmeaning, hne⟩ := meaning_eq_toldOf hg hacyclic .text
  obtain ⟨hmeaning', -⟩ := meaning_eq_toldOf hg hc .text
  -- one level below the group the text of the child is asked for, and it is settled there
  have hgroup : g.meaning (4 * g.size + 1) .text (some i) = g.meaning (4 * g.size) .text c := by
    rw [meaning_node hi, answerOf]
    show (g.meaning (4 * g.size) .text c >>= fun x => _) >>= _ = _
    cases g.meaning (4 * g.size) .text c with
    | error | ok => rfl
  have hsettled : g.Settled (4 * g.size) .text c := fun h =>
    hne (hmeaning.symm.trans (hgroup.trans h))
  rw [render_eq_told hg, render_eq_told hg, ← hmeaning, ← hmeaning', hgroup, hsettled.meaning_eq_of_le (Nat.le_succ _)]

/-- The text of a tree of new nodes. -/
def Tree.rendered (t : Tree) : Except Failure Rendering := (t.plant {}).2.render (t.plant {}).1

theorem Tree.IsDigital.unfolds {t : Tree} (h : t.IsDigital) :
    (t.plant {}).2.IsTidy ∧ (t.plant {}).2.Unfolds t (t.plant {}).1 := by
  have hempty : ({} : Graph).IsProper Text.IsComplete := fun i n hn => by
    simp [Graph.node?] at hn
  obtain ⟨hproper, -, hstands⟩ := plant_stands (h.isProper _) (Nat.zero_le _) hempty
  refine ⟨hproper.isTidy, (hstands _ (.refl 0 _)).imp ?_ ?_⟩
  · rintro _ rfl
    exact ⟨rfl, rfl⟩
  · rw [h.links_eq_nil]
    exact fun _ hr => absurd hr not_mem_nil

namespace Description

/-! ### Integers and their symbols -/

/-- The integer with its sign apart. -/
def Number.ofInt : Int → Number
  | .ofNat n => ⟨false, n⟩
  | .negSucc n => ⟨true, n + 1⟩

theorem Number.toInt_ofInt (n : Int) : (ofInt n).toInt = n := by
  cases n with
  | ofNat | negSucc => rfl

theorem Number.value_ofInt (n : Int) : (ofInt n).value = n.natAbs := by
  cases n with
  | ofNat | negSucc => rfl

theorem Number.mem_symbols {n : Number} {s : Symbol} :
    s ∈ n.symbols ↔ n.negative = true ∧ s = .word "-" ∨ s = .int n.value := by
  cases h : n.negative <;> simp [symbols, h]

variable {g : Glyph} {t : Text} {ss : List Symbol}

theorem endsWord_cons (hident : isIdentRest g = false) (hdigit : g.isDigit = false) (t : Text) : EndsWord (g :: t) := by
  rintro _ ⟨⟩
  exact ⟨hident, hdigit⟩

/-- A mark is read, whatever follows it. -/
theorem Lexes.mark (hg : isPunct g = true) (h : Lexes t ss) : Lexes (g :: t) (.word [g] :: ss) :=
  .token (lexeme?_of_isPunct hg t) (fun _ _ => ⟨_, rfl, (wordKind_of_isPunct hg).symm, rfl⟩) h

/-- **An integer is read,** if its digits are not too large. -/
theorem Lexes.integer {n : Int} (hn : n.natAbs < 0x8000000000000000) (ht : EndsWord t) (h : Lexes t ss) :
    Lexes (Text.ofInt n ++ t) ((Number.ofInt n).symbols ++ ss) := by
  cases n with
  | ofNat n => exact .symbol (s := .int n) hn ht h
  | negSucc n => exact .mark rfl (.symbol (s := .int (n + 1)) hn ht h)

/-! ### Files with one range -/

/-- A file that defines `A` as the range from `min` to `max`. -/
def rangeSource (min max : Int) (zeros : ZerosWord) : Text :=
  "pattern A = range(" ++ Text.ofInt min ++ ", " ++ Text.ofInt max ++ ", " ++ zeros.spelling ++ ");"

/-- The definition of `A` as the range. -/
def rangeDefinition (min max : Int) (zeros : ZerosWord) : Definition :=
  ⟨nowhere, "A", [[.mk nowhere (.range (.ofInt min) (.ofInt max) (some zeros)) none]]⟩

section

variable {min max : Int} {zeros : ZerosWord} {file : Text}

/-- The file, symbol by symbol. -/
theorem rangeSource_eq (min max : Int) (zeros : ZerosWord) : rangeSource min max zeros =
    Symbol.text (.word "pattern") ++ Glyph.char ' ' :: (Symbol.text (.ident "A") ++ Glyph.char ' ' ::
      .char '=' :: .char ' ' :: (Symbol.text (.word "range") ++ Glyph.char '(' :: (Text.ofInt min ++
        Glyph.char ',' :: .char ' ' :: (Text.ofInt max ++ Glyph.char ',' :: .char ' ' ::
          (Symbol.text (.word zeros.spelling) ++ Glyph.char ')' :: .char ';' :: []))))) := by
  simp only [rangeSource, append_assoc]
  rfl

theorem symbols_rangeDefinition (min max : Int) (zeros : ZerosWord) : symbols [rangeDefinition min max zeros] =
      .word "pattern" :: .ident "A" :: .word "=" :: .word "range" :: .word "(" ::
        ((Number.ofInt min).symbols ++ Symbol.word "," :: ((Number.ofInt max).symbols ++
          [Symbol.word ",", .word zeros.spelling, .word ")", .word ";"])) := by
  simp [symbols, Definition.symbols, rangeDefinition, exprSymbols, sequenceSymbols, branchSymbols,
    Term.symbols, Atom.symbols, optionSymbols, zerosSymbols]

theorem lexes_rangeSource (hmin : min.natAbs < 0x8000000000000000) (hmax : max.natAbs < 0x8000000000000000) :
    Lexes (rangeSource min max zeros) (symbols [rangeDefinition min max zeros]) := by
  have hzeros : IsWordText zeros.spelling :=
    areLexemes_zeros (some zeros) (.word zeros.spelling) (by simp [zerosSymbols])
  rw [rangeSource_eq, symbols_rangeDefinition]
  refine .symbol (.inl rfl) (endsWord_cons rfl rfl _) (.blank rfl ?_)
  refine .symbol (s := .ident "A") rfl (endsWord_cons rfl rfl _) (.blank rfl ?_)
  refine .mark rfl (.blank rfl ?_)
  refine .symbol (.inl rfl) (endsWord_cons rfl rfl _) (.mark rfl ?_)
  refine .integer hmin (endsWord_cons rfl rfl _) (.mark rfl (.blank rfl ?_))
  refine .integer hmax (endsWord_cons rfl rfl _) (.mark rfl (.blank rfl ?_))
  exact .symbol (s := .word zeros.spelling) hzeros (endsWord_cons rfl rfl _) (.mark rfl (.mark rfl .nil))

theorem isWellFormed_rangeDefinition (hmin : min.natAbs < 0x8000000000000000)
    (hmax : max.natAbs < 0x8000000000000000) : IsWellFormed [rangeDefinition min max zeros] := by
  refine ⟨?_, fun x hx => ?_, fun n hn => ?_, ?_⟩
  · refine forall_mem_singleton.2 fun x hx => ?_
    exact nomatch hx
  · obtain rfl : x = "A" := by simpa [symbols_rangeDefinition, Number.mem_symbols] using hx
    rfl
  · have hn : n = min.natAbs ∨ n = max.natAbs := by
      simpa [symbols_rangeDefinition, Number.mem_symbols, Number.value_ofInt] using hn
    omega
  · refine forall_mem_singleton.2 fun e he => ?_
    obtain rfl := mem_singleton.1 he
    exact ⟨cons_ne_nil _ _, forall_mem_singleton.2 ⟨cons_ne_nil _ _,
      forall_mem_singleton.2 ⟨trivial, nofun⟩⟩⟩

theorem isUnmistakable_rangeDefinition : IsUnmistakable [rangeDefinition min max zeros] := by
  refine ⟨fun v hv => ?_, ?_⟩
  · simp [symbols_rangeDefinition, Number.mem_symbols] at hv
  · refine forall_mem_singleton.2 fun e he => ?_
    obtain rfl := mem_singleton.1 he
    exact forall_mem_singleton.2 ⟨.singleton _, forall_mem_singleton.2 nofun⟩

theorem eq_of_unplaced_eq {ds : List Definition} (h : unplaced ds = unplaced [rangeDefinition min max zeros]) :
    ∃ pos pos', ds = [⟨pos, "A", [[.mk pos' (.range (.ofInt min) (.ofInt max) (some zeros)) none]]⟩] := by
  obtain ⟨⟨pos, name, e⟩, rfl, hd⟩ := map_eq_singleton_iff.1 h
  obtain ⟨-, rfl, he⟩ := Definition.mk.inj hd
  rw [unplacedSequences_eq] at he
  obtain ⟨s, rfl, hs⟩ := map_eq_singleton_iff.1 he
  rw [unplacedTerms_eq] at hs
  obtain ⟨⟨pos', a, q⟩, rfl, ht⟩ := map_eq_singleton_iff.1 hs
  obtain ⟨-, ha, rfl⟩ := Term.mk.inj ht
  cases a with
  | range =>
    cases ha
    exact ⟨pos, pos', rfl⟩
  | cond test yes no => cases no <;> cases ha
  | _ => cases ha

/-- **The range is read,** if the digits of its bounds are not too large. -/
theorem parse_rangeSource (hmin : min.natAbs < 0x8000000000000000)
    (hmax : max.natAbs < 0x8000000000000000) (zeros : ZerosWord) (file : Text) :
    ∃ pos pos', parse file (rangeSource min max zeros) =
      .ok [⟨pos, "A", [[.mk pos' (.range (.ofInt min) (.ofInt max) (some zeros)) none]]⟩] := by
  obtain ⟨ts, e, hts, he, hwrites⟩ := (lexes_rangeSource hmin hmax).tokensFrom_eq (Nat.le_refl _)
    ⟨file, 1, 1⟩ ⟨file, 1, 1⟩
  have hunmistakable : IsUnmistakable [rangeDefinition min max zeros] := isUnmistakable_rangeDefinition
  obtain ⟨ds, hparse, hsame⟩ := exists_parse_of_tokens (isWellFormed_rangeDefinition hmin hmax)
    hunmistakable hts he hwrites
  obtain ⟨pos, pos', rfl⟩ := eq_of_unplaced_eq hsame
  exact ⟨pos, pos', hparse⟩

theorem exists_numericRange (h : min ≤ max) (zeros : ZerosWord) :
    ∃ t, numericRange min max (zerosPadding (some zeros)) = .ok t := by
  unfold numericRange
  rw [if_neg (Int.not_lt.2 h)]
  cases zeros <;> exact ⟨_, rfl⟩

/-- The file has the definition `A`, and it is written as the numeric range is. -/
def LoadsRange (file : Text) (min max : Int) (zeros : ZerosWord) : Prop :=
  ∃ lib i t x, load file (rangeSource min max zeros) = .ok lib ∧
    lib.patterns.map (fun p => (p.name, p.node)) = [(("A" : Text), i)] ∧
    numericRange min max (zerosPadding (some zeros)) = .ok t ∧ t.rendered = .ok x ∧
    lib.graph.render (some i) = .ok x

/-- **The range is loaded,** and written as the numeric range is. -/
theorem loadsRange (h : min ≤ max) (hmin : min.natAbs < 0x8000000000000000)
    (hmax : max.natAbs < 0x8000000000000000) (zeros : ZerosWord) (file : Text) : LoadsRange file min max zeros := by
  obtain ⟨pos, pos', hparse⟩ := parse_rangeSource hmin hmax zeros file
  obtain ⟨t, ht⟩ := exists_numericRange h zeros
  have htree : ∀ nodes, exprTree nodes [[.mk pos' (.range (.ofInt min) (.ofInt max) (some zeros)) none]] = .ok t := by
    intro nodes
    simp only [exprTree, sequenceTrees, termTrees, Term.tree, Atom.tree, Number.toInt_ofInt, ht]
    rfl
  have hname : ("A" : Text) ∉ keywords := by decide
  have hdigital := numericRange_isDigital ht
  obtain ⟨lib, hlib, hpatterns, hproper, hunfolds⟩ := exists_resolve_singleton
    (d := ⟨pos, "A", _⟩) hname htree (hdigital.isProper Text.IsComplete)
  -- the definition is a group around the tree, and the tree alone is written in the same way
  obtain ⟨r, ⟨i, hi, -, hgroup⟩, hr⟩ := id hunfolds
  obtain rfl : 0 = i := Option.some.inj hi
  obtain ⟨htidy, hplanted⟩ := hdigital.unfolds
  obtain ⟨x, hx⟩ := Graph.IsDigital.exists_render ⟨t, hdigital, hplanted⟩
  have hsame := (Graph.isMirror_unfolds _ lib.graph).render_alike htidy hproper.isTidy
    ⟨t, hplanted, hr⟩ hplanted.not_hasCycleFrom
  refine ⟨lib, 0, t, x, bind_eq_ok.2 ⟨_, by rw [hparse]; rfl, hlib⟩, by rw [hpatterns]; rfl, ht, hx, ?_⟩
  rw [Graph.render_group hproper.isTidy hgroup hunfolds.not_hasCycleFrom]
  rw [hx] at hsame
  generalize lib.graph.render r = y at hsame
  cases hsame with
  | ok h => rw [h]

/-! ### Integers that are too large -/

/-- The integer `v` is among the lexemes of the text. -/
inductive HasInteger (v : Text) : Text → Prop where
  | here {t rest : Text} (h : lexeme? t = some (some .int, v, rest)) : HasInteger v t
  | later {t lexeme rest : Text} {kind : Option TokenKind} (h : lexeme? t = some (kind, lexeme, rest))
    (hrest : HasInteger v rest) : HasInteger v t

/-- **The integer is among the tokens,** if the text has tokens at all. -/
theorem HasInteger.exists_token {v t : Text} (h : HasInteger v t) {steps : Nat} {pos gap : Position}
    {ts : List Token} (hts : tokensFrom steps pos gap t = .ok ts) : ∃ u ∈ ts, u.kind = .int ∧ u.value = v := by
  fun_induction tokensFrom steps pos gap t generalizing ts with
  | case1 => cases h <;> contradiction
  | case2 | case3 => cases hts
  | case4 steps pos gap t _ lexeme rest hlexeme ih =>
    cases h with
    | here h => cases hlexeme.symm.trans h
    | later h hrest =>
      cases hlexeme.symm.trans h
      exact ih hrest hts
  | case5 steps pos gap t _ kind lexeme rest hlexeme ih =>
    obtain ⟨token, htoken, hts⟩ := bind_eq_ok.1 hts
    obtain ⟨tokens, htokens, hts⟩ := bind_eq_ok.1 hts
    cases hts
    cases h with
    | here h =>
      cases hlexeme.symm.trans h
      cases htoken
      exact ⟨_, mem_cons_self, rfl, rfl⟩
    | later h hrest =>
      cases hlexeme.symm.trans h
      obtain ⟨u, hu, hvalue⟩ := ih hrest htokens
      exact ⟨u, mem_cons_of_mem _ hu, hvalue⟩

/-- A token for an integer is not written for another symbol. -/
theorem Token.Writes.exists_integerValue {u : Token} {s : Symbol} (h : u.Writes IsReadKind s)
    (hkind : u.kind = .int) : ∃ n, integerValue u.value = .ok n := by
  cases s with
  | int n => exact ⟨n, h.2⟩
  | string | ident => cases hkind.symm.trans h.1
  | word =>
    rcases h.1 with hw | hw
    · rw [hkind, wordKind] at hw
      split at hw <;> cases hw
    · cases hkind.symm.trans hw

/-- **A text with an integer that has no value is not loaded.** -/
theorem HasInteger.load_error {v src : Text} (h : HasInteger v src)
    (hv : ∀ n, integerValue v ≠ .ok n) (file : Text) : ∃ why, load file src = .error why := by
  cases hload : load file src with
  | error why => exact ⟨why, rfl⟩
  | ok =>
    obtain ⟨ds, hparse, -⟩ := bind_eq_ok.1 hload
    obtain ⟨ts, e, hts, he, hwrites⟩ := writes_of_parse (mapError_eq_ok.1 hparse)
    obtain ⟨u, hu, hkind, rfl⟩ := h.exists_token hts
    rcases mem_append.1 hu with hu | hu
    · obtain ⟨s, -, hs⟩ := exists_mem_of_forall₂ hwrites hu
      obtain ⟨n, hn⟩ := hs.exists_integerValue hkind
      exact absurd hn (hv n)
    · cases hkind.symm.trans (mem_singleton.1 hu ▸ he)

theorem hasInteger_rangeSource (n : Nat) (max : Int) (zeros : ZerosWord) :
    HasInteger (Text.ofNat (n + 1)) (rangeSource (.negSucc n) max zeros) := by
  rw [rangeSource_eq]
  have hhere : HasInteger (Text.ofNat (n + 1)) (Text.ofNat (n + 1) ++ Glyph.char ',' :: .char ' ' ::
      (Text.ofInt max ++ Glyph.char ',' :: .char ' ' ::
          (Symbol.text (.word zeros.spelling) ++ Glyph.char ')' :: .char ';' :: []))) :=
    .here (lexeme?_ofNat _ (endsWord_cons rfl rfl _))
  exact .later rfl (.later rfl (.later rfl (.later rfl (.later rfl (.later rfl (.later rfl (.later rfl
    (.later rfl hhere))))))))

end

/-- **A description reaches every integer of 64 bits but the least one.** A range of such integers is
loaded, and written as the numeric range is, if and only if the least integer is not its minimum. -/
theorem loadsRange_iff (file : Text) {min max : Int64} (h : min ≤ max) (zeros : ZerosWord) :
    LoadsRange file min.toInt max.toInt zeros ↔ min ≠ Int64.minValue := by
  constructor
  · rintro ⟨lib, -, -, -, hload, -⟩ rfl
    have hinteger := hasInteger_rangeSource 0x7fffffffffffffff max.toInt zeros
    have hvalue : integerValue (Text.ofNat 0x8000000000000000) = .error true := by decide +kernel
    obtain ⟨why, hwhy⟩ := hinteger.load_error (fun n hn => nomatch hvalue.symm.trans hn) file
    cases hload.symm.trans hwhy
  · intro hne
    have hmin : min.toInt ≠ -0x8000000000000000 := fun h => hne (Int64.toInt_inj.1 h)
    have hle : min.toInt ≤ max.toInt := Int64.le_iff_toInt_le.1 h
    have hlow := min.le_toInt
    have hhigh := max.toInt_lt
    exact loadsRange hle (by omega) (by omega) zeros file

/-- The widest range that a description can say, with its zeros. -/
theorem loadsRange_iff_widest : Int64.minValue + 1 ≤ Int64.maxValue ∧
    LoadsRange [] (Int64.minValue + 1).toInt Int64.maxValue.toInt .required :=
  ⟨by decide, (loadsRange_iff [] (by decide) .required).2 (by decide)⟩

/-- **The least integer is refused,** although its range has a text. -/
theorem least_integer_refused :
    (load "t.rx" "pattern A = range(-9223372036854775808, -9223372036854775808, none);").toOption.isNone ∧
    rangeSource Int64.minValue.toInt Int64.minValue.toInt .none =
      "pattern A = range(-9223372036854775808, -9223372036854775808, none);" ∧
    ((numericRange Int64.minValue.toInt Int64.minValue.toInt (zerosPadding (some .none))).toOption.bind
      fun t => t.rendered.toOption.map Rendering.text) = some "-9223372036854775808" := by
  decide +kernel

end Description
end RegexBuilder
