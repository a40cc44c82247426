/-
# The symbols of a description

A description is written as a list of symbols, in which nothing but places is missing (`symbols`): strings, integers,
identifiers, and the words and marks of the grammar. Tokens are compared with symbols by value. As which kinds of
tokens a word is written is a parameter (`Token.Writes`): as an identifier or a mark where a file is written, as any
token with its value where one is read.
-/

import RegexBuilder.Proofs.Substitution

namespace RegexBuilder.Description

open List

/-- The smallest parts of a description. -/
inductive Symbol where
  | string (value : Text)
  | int (n : Nat)
  | ident (name : Text)
  | word (spelling : Text)
deriving DecidableEq, Repr

/-! ### Symbols of the parts of an expression -/

/-- The symbols of something that may be left out. -/
def optionSymbols {α : Type} (f : α → List Symbol) : Option α → List Symbol
  | none => []
  | some a => f a

def Number.symbols (n : Number) : List Symbol :=
  (if n.negative then [Symbol.word "-"] else []) ++ [.int n.value]

/-- A mark, or what is set of the bounds in braces. -/
def Count.symbols (c : Count) : List Symbol :=
  match c.mark with
  | some m => [.word m.spelling]
  | none => Symbol.word "\x7b" :: optionSymbols (fun n => [.int n]) c.min ++
      (if c.comma then [.word ","] else []) ++ optionSymbols (fun n => [.int n]) c.max ++ [Symbol.word "\x7d"]

def Quantifier.symbols (q : Quantifier) : List Symbol :=
  q.count.symbols ++ if q.isLazy then [Symbol.word "lazy"] else []

/-- What is set of an entry, in the order of the grammar. -/
def SetItem.symbols (i : SetItem) : List Symbol :=
  optionSymbols (fun text => [.string text]) i.first ++
    optionSymbols (fun text => [.word "-", .string text]) i.last ++
    optionSymbols (fun name => [.word "category", .word "(", .string name, .word ")"]) i.categoryName ++
    optionSymbols (fun which => [.word which.spelling]) i.className

def itemSymbols (items : List PlacedItem) : List Symbol := items.flatMap fun i => i.item.symbols

def SetExpr.symbols (s : SetExpr) : List Symbol :=
  Symbol.word "[" :: (if s.negated then [.word "^"] else []) ++ itemSymbols s.items ++
    (if s.except = [] then [] else .word "except" :: itemSymbols s.except) ++ [Symbol.word "]"]

def zerosSymbols : Option ZerosWord → List Symbol
  | none => []
  | some w => [.word ",", .word w.spelling]

/-- What is set of a reference. -/
def GroupRef.symbols (x : GroupRef) : List Symbol :=
  optionSymbols (fun n => [.int n]) x.number ++ optionSymbols (fun name => [.ident name]) x.name

def GroupLabel.symbols (l : GroupLabel) : List Symbol :=
  Symbol.word "<" :: (if l.name = [] then [] else [.ident l.name]) ++
    (if l.other = [] then [] else [Symbol.word "-", .ident l.other]) ++ [Symbol.word ">"]

mutual

/-- The symbols of an atom. -/
def Atom.symbols : Atom → List Symbol
  | .literal text => [.string text]
  | .parens body => .word "(" :: exprSymbols body ++ [Symbol.word ")"]
  | .set s => s.symbols
  | .range min max zeros => [.word "range", .word "("] ++ min.symbols ++ Symbol.word "," :: max.symbols ++
      zerosSymbols zeros ++ [Symbol.word ")"]
  | .group which label body => .word which.spelling :: optionSymbols GroupLabel.symbols label ++
      .word "(" :: exprSymbols body ++ [Symbol.word ")"]
  | .leaf which arg => [.word which.spelling, .word "(", .string arg, .word ")"]
  | .backref group => [.word "backref", .word "("] ++ group.symbols ++ [Symbol.word ")"]
  | .cond test yes none => [.word "if", .word "("] ++ test.symbols ++ Symbol.word "," :: exprSymbols yes ++
      [Symbol.word ")"]
  | .cond test yes (some no) => [.word "if", .word "("] ++ test.symbols ++ Symbol.word "," :: exprSymbols yes ++
      .word "," :: exprSymbols no ++ [Symbol.word ")"]
  | .modify flags body => [.word "modify", .word "(", .string flags, .word ","] ++
      exprSymbols body ++ [Symbol.word ")"]
  | .cls which => [.word which.spelling]
  | .anchor which => [.word which.spelling]
  | .ref name => [.ident name]

/-- The symbols of a term. -/
def Term.symbols : Term → List Symbol
  | .mk _ a q => a.symbols ++ optionSymbols Quantifier.symbols q

/-- The symbols of a sequence. -/
def sequenceSymbols : List Term → List Symbol
  | [] => []
  | t :: rest => t.symbols ++ sequenceSymbols rest

/-- The symbols of further branches. -/
def branchSymbols : List (List Term) → List Symbol
  | [] => []
  | s :: rest => .word "|" :: sequenceSymbols s ++ branchSymbols rest

/-- The symbols of an expression. -/
def exprSymbols : List (List Term) → List Symbol
  | [] => []
  | s :: rest => sequenceSymbols s ++ branchSymbols rest

end

def Definition.symbols (d : Definition) : List Symbol :=
  [Symbol.word "pattern", .ident d.name, .word "="] ++ exprSymbols d.expr ++ [Symbol.word ";"]

/-- The symbols of definitions. -/
def symbols (ds : List Definition) : List Symbol := ds.flatMap Definition.symbols

theorem sequenceSymbols_eq (s : List Term) : sequenceSymbols s = s.flatMap Term.symbols := by
  induction s with
  | nil => rfl
  | cons t s ih => rw [sequenceSymbols, ih, flatMap_cons]

theorem branchSymbols_eq (e : List (List Term)) :
    branchSymbols e = e.flatMap fun s => .word "|" :: sequenceSymbols s := by
  induction e with
  | nil => rfl
  | cons s e ih => rw [branchSymbols, ih, flatMap_cons]

section

variable {α : Type} {f : α → List Symbol}

/-- Parts that have symbols are not more than the symbols. -/
theorem length_le_flatMap {l : List α} (hf : ∀ a ∈ l, f a ≠ []) : l.length ≤ (l.flatMap f).length := by
  induction l with
  | nil => exact Nat.le_refl _
  | cons a l ih =>
    obtain ⟨ha, hl⟩ := forall_mem_cons.1 hf
    have ha := length_pos_iff.2 ha
    have hl := ih hl
    rw [flatMap_cons, length_append, length_cons]
    omega

theorem length_le_of_mem {a : α} {l : List α} (ha : a ∈ l) : (f a).length ≤ (l.flatMap f).length :=
  (sublist_flatten_of_mem (mem_map_of_mem ha)).length_le

end

/-! ### Tokens for symbols -/

/-- The token is written for the symbol, where a token of a kind `k` with `K w k` may be written for
the word `w`. -/
def Token.Writes (K : Text → TokenKind → Prop) (t : Token) : Symbol → Prop
  | .string value => t.kind = .string ∧ t.value = value
  | .int n => t.kind = .int ∧ integerValue t.value = .ok n
  | .ident name => t.kind = .ident ∧ t.value = name
  | .word spelling => K spelling t.kind ∧ t.value = spelling

/-- The letters of ASCII by their numbers. -/
theorem isAlpha_iff {c : Char} : c.isAlpha = true ↔
    65 ≤ c.toNat ∧ c.toNat ≤ 90 ∨ 97 ≤ c.toNat ∧ c.toNat ≤ 122 := by
  have hupper : c.isUpper = decide (65 ≤ c.toNat ∧ c.toNat ≤ 90) := by
    show decide (c.val ≥ 'A'.val ∧ c.val ≤ 'Z'.val) = _
    simp only [ge_iff_le, UInt32.le_iff_toNat_le]
    rfl
  have hlower : c.isLower = (decide (97 ≤ c.toNat) && decide (c.toNat ≤ 122)) := by
    show (decide (c.val ≥ 'a'.val) && decide (c.val ≤ 'z'.val)) = _
    simp only [ge_iff_le, UInt32.le_iff_toNat_le]
    rfl
  show (c.isUpper || c.isLower) = true ↔ _
  rw [hupper, hlower]
  simp only [Bool.or_eq_true, Bool.and_eq_true, decide_eq_true_eq]

/-- A letter of ASCII or `_`, and then letters, digits and `_`. -/
def isIdentifier : Text → Bool
  | [] => false
  | g :: rest => isIdentStart g && rest.all isIdentRest

/-- The kind of the token for a word or a mark. -/
def wordKind (w : Text) : TokenKind := if isIdentifier w then .ident else .punct

/-- A word is written as a word. -/
def IsWordKind (w : Text) (k : TokenKind) : Prop := k = wordKind w

/-- The tokens up to `rest` are written for the symbols, one by one. -/
def Reading (K : Text → TokenKind → Prop) (ss : List Symbol) (ts rest : List Token) : Prop :=
  ∃ taken, ts = taken ++ rest ∧ Forall₂ (Token.Writes K) taken ss

section

variable {K : Text → TokenKind → Prop} {ss ss' : List Symbol} {s : Symbol} {ts mid rest : List Token}

theorem Reading.nil (ts : List Token) : Reading K [] ts ts := ⟨[], rfl, .nil⟩

theorem Reading.append (h : Reading K ss ts mid) (h' : Reading K ss' mid rest) : Reading K (ss ++ ss') ts rest := by
  obtain ⟨taken, rfl, h⟩ := h
  obtain ⟨taken', rfl, h'⟩ := h'
  exact ⟨taken ++ taken', (append_assoc ..).symm, rel_append h h'⟩

theorem Reading.cons {t : Token} (ht : t.Writes K s) (h : Reading K ss ts rest) :
    Reading K (s :: ss) (t :: ts) rest := by
  obtain ⟨taken, rfl, h⟩ := h
  exact ⟨t :: taken, rfl, .cons ht h⟩

theorem Reading.singleton {t : Token} (ht : t.Writes K s) : Reading K [s] (t :: rest) rest := .cons ht (.nil rest)

/-- As many tokens as symbols are read. -/
theorem Reading.length_eq (h : Reading K ss ts rest) : ts.length = ss.length + rest.length := by
  obtain ⟨taken, rfl, h⟩ := h
  rw [length_append, h.length_eq]

end

/-! ### Terms and what is inside them -/

/-- The atom of a term. -/
def Term.atom : Term → Atom
  | .mk _ a _ => a

/-- The quantifier of a term. -/
def Term.quantifier : Term → Option Quantifier
  | .mk _ _ q => q

/-- The expressions right inside an atom. -/
def Atom.bodies : Atom → List Expr
  | .parens body | .group _ _ body | .modify _ body => [body]
  | .cond _ yes no => yes :: no.toList
  | .literal _ | .set _ | .range _ _ _ | .leaf _ _ | .backref _ | .cls _ | .anchor _ | .ref _ => []

/-- The expression and all expressions inside it. -/
def exprs (e : Expr) : List Expr := e :: (sequenceAtoms (fun _ => false) e).flatMap Atom.bodies

/-- The expression and all expressions inside it satisfy `P`. -/
def Everywhere (P : Expr → Prop) (e : Expr) : Prop := ∀ e' ∈ exprs e, P e'

section

variable {a : Atom} {s : List Term} {e : Expr}

/-- The atoms of terms are those of each term. -/
theorem mem_termAtoms : a ∈ termAtoms (fun _ => false) s ↔ ∃ t ∈ s, a ∈ t.atom.atoms fun _ => false := by
  have hskipped : ∀ q, isSkipped (fun _ => false) q = false := fun q => by
    unfold isSkipped
    split
    · rfl
    · split <;> rfl
  induction s with
  | nil => simp [termAtoms]
  | cons t s ih =>
    obtain ⟨pos, b, q⟩ := t
    simp [termAtoms, Term.atoms, hskipped, Term.atom, ih]

/-- The atoms of an atom are itself and those of the expressions inside it. -/
theorem mem_atoms {b : Atom} : a ∈ b.atoms (fun _ => false) ↔
    a = b ∨ ∃ e ∈ b.bodies, a ∈ sequenceAtoms (fun _ => false) e := by
  cases b with
  | cond test yes no => cases no <;> simp [Atom.atoms, Atom.bodies]
  | _ => simp [Atom.atoms, Atom.bodies]

/-- The atoms of an expression are those of its terms and those inside them. -/
theorem mem_sequenceAtoms : a ∈ sequenceAtoms (fun _ => false) e ↔
    ∃ s ∈ e, ∃ t ∈ s, a = t.atom ∨ ∃ b ∈ t.atom.bodies, a ∈ sequenceAtoms (fun _ => false) b := by
  simp only [← mem_atoms, ← mem_termAtoms]
  induction e with
  | nil => simp [sequenceAtoms]
  | cons s e ih => simp [sequenceAtoms, ih]

/-- The expressions in an expression are itself and those inside its atoms. -/
theorem mem_exprs {e' : Expr} : e' ∈ exprs e ↔ e' = e ∨ ∃ s ∈ e, ∃ t ∈ s, ∃ b ∈ t.atom.bodies, e' ∈ exprs b := by
  simp only [exprs, mem_cons, mem_flatMap]
  constructor
  · rintro (rfl | ⟨a, ha, he'⟩)
    · exact .inl rfl
    · obtain ⟨s, hs, t, ht, rfl | ⟨b, hb, ha⟩⟩ := mem_sequenceAtoms.1 ha
      · exact .inr ⟨s, hs, t, ht, e', he', .inl rfl⟩
      · exact .inr ⟨s, hs, t, ht, b, hb, .inr ⟨a, ha, he'⟩⟩
  · rintro (rfl | ⟨s, hs, t, ht, b, hb, rfl | ⟨a, ha, he'⟩⟩)
    · exact .inl rfl
    · exact .inr ⟨_, mem_sequenceAtoms.2 ⟨s, hs, t, ht, .inl rfl⟩, hb⟩
    · exact .inr ⟨a, mem_sequenceAtoms.2 ⟨s, hs, t, ht, .inr ⟨b, hb, ha⟩⟩, he'⟩

/-- What holds everywhere in an expression holds of it and everywhere inside its atoms. -/
theorem everywhere_iff {P : Expr → Prop} : Everywhere P e ↔
    P e ∧ ∀ s ∈ e, ∀ t ∈ s, ∀ b ∈ t.atom.bodies, Everywhere P b := by
  unfold Everywhere
  simp only [mem_exprs (e := e)]
  grind

/-- An expression inside an atom is smaller than the one that the atom is in. -/
theorem sizeOf_body_lt {b : Expr} {t : Term} (hs : s ∈ e) (ht : t ∈ s) (hb : b ∈ t.atom.bodies) :
    sizeOf b < sizeOf e := by
  have hes := sizeOf_lt_of_mem hs
  have hst := sizeOf_lt_of_mem ht
  suffices h : sizeOf b < sizeOf t by omega
  obtain ⟨pos, a, q⟩ := t
  cases a with
  | cond =>
    rcases mem_cons.1 hb with rfl | hb
    · simp only [Term.mk.sizeOf_spec, Atom.cond.sizeOf_spec]
      omega
    · obtain rfl := Option.mem_toList.1 hb
      simp only [Term.mk.sizeOf_spec, Atom.cond.sizeOf_spec, Option.some.sizeOf_spec]
      omega
  | parens | group | modify =>
    obtain rfl := mem_singleton.1 hb
    simp only [Term.mk.sizeOf_spec, Atom.parens.sizeOf_spec, Atom.group.sizeOf_spec, Atom.modify.sizeOf_spec]
    omega
  | _ => exact nomatch hb

theorem mem_sequenceAtoms_of_mem_exprs {e e' : Expr} (he' : e' ∈ exprs e) {s : List Term} (hs : s ∈ e')
    {t : Term} (ht : t ∈ s) : t.atom ∈ sequenceAtoms (fun _ => false) e := by
  rcases mem_exprs.1 he' with rfl | ⟨s', hs', t', ht', b, hb, he'⟩
  · exact mem_sequenceAtoms.2 ⟨s, hs, t, ht, .inl rfl⟩
  · exact mem_sequenceAtoms.2 ⟨s', hs', t', ht', .inr ⟨b, hb, mem_sequenceAtoms_of_mem_exprs he' hs ht⟩⟩
termination_by sizeOf e
decreasing_by exact sizeOf_body_lt hs' ht' hb

end

/-! ### Strings that are taken for words -/

/-- The spellings of the marks for counts. -/
def countMarks : List Text := CountMark.all.map CountMark.spelling

/-- Behind the term the string `v` would be read as its quantifier, or as the `lazy` of its
quantifier. -/
def Term.Swallows (t : Term) (v : Text) : Prop :=
  match t.quantifier with
  | none => v ∈ countMarks
  | some q => q.isLazy = false ∧ v = "lazy"

/-- The string that an entry of a set begins with. -/
def SetItem.string? (i : SetItem) : Option Text := i.first

/-- No string `-` stands between two strings, where it would make a range of them. -/
def DashApart (items : List SetItem) : Prop :=
  ∀ x i, [.chars x, .chars "-", i] <:+: items → i.string? = none

/-- No string of the set is taken for a word. -/
structure SetExpr.IsUnmistakable (s : SetExpr) : Prop where
  caret : s.negated = false → ∀ i ∈ s.items.head?, i.item.string? ≠ some "^"
  items : DashApart (s.items.map PlacedItem.item)
  except : DashApart (s.except.map PlacedItem.item)

/-- No string of the sequence is taken for a word, those in expressions inside it apart. -/
structure Sequence.IsUnmistakable (s : List Term) : Prop where
  terms : s.IsChain fun t next => ∀ v, next.atom = .literal v → ¬ t.Swallows v
  sets : ∀ t ∈ s, ∀ x, t.atom = .set x → x.IsUnmistakable

/-! ### Fields that are set together -/

/-- A count is a mark alone, or it has a first bound. -/
inductive Count.IsFilled : Count → Prop where
  | marked (m : CountMark) : IsFilled (marked m)
  | braces (min : Nat) (comma : Bool) (max : Option Nat) : IsFilled (braces min comma max)

/-- A reference has a number or a name. -/
inductive GroupRef.IsFilled : GroupRef → Prop where
  | numbered (n : Nat) : IsFilled (numbered n)
  | named (x : Text) : IsFilled (named x)

/-- An entry is a text, two texts, a category, or a class other than `any`. -/
inductive SetItem.IsFilled : SetItem → Prop where
  | chars (text : Text) : IsFilled (chars text)
  | range (first last : Text) : IsFilled (range first last)
  | category (name : Text) : IsFilled (category name)
  | cls {which : ClassWord} (h : which ∈ ClassWord.inSets) : IsFilled (cls which)

/-- The fields of the atom are set as one form of the grammar sets them. -/
def Atom.IsGrammatical : Atom → Prop
  | .set s => ∀ i ∈ s.items ++ s.except, i.item.IsFilled
  | .backref x | .cond x _ _ => x.IsFilled
  | _ => True

/-- The fields of the term are set as one form of the grammar sets them. -/
structure Term.IsGrammatical (t : Term) : Prop where
  atom : t.atom.IsGrammatical
  count : ∀ q ∈ t.quantifier, q.count.IsFilled

/-- The grammar has the expression, those inside it apart. -/
def Expr.IsGrammatical (e : List (List Term)) : Prop :=
  e ≠ [] ∧ ∀ s ∈ e, s ≠ [] ∧ ∀ t ∈ s, t.IsGrammatical

end RegexBuilder.Description
