/-
# Quantifiers as they are written

A quantifier is documented in six forms, each of which `lazy` may follow (`CountForm`):

| written | bounds |
| --- | --- |
| `*`, `+`, `?` | `(0, ∞)`, `(1, ∞)`, `(0, 1)` |
| `{n}` | `(n, n)` |
| `{n,}` | `(n, ∞)` |
| `{n,m}` | `(n, m)`, where `n ≤ m` |

In braces the comma may be left out and a second bound still be written; it is then read and ignored
(`second_bound_ignored`). The tokens of a term stand in the text where the term stands in its expression
(`Term.symbols_isInfix`), and its tree stands in the graph below that of the expression (`exists_stands_term`).
-/

import RegexBuilder.Proofs.Cycle
import RegexBuilder.Proofs.ReadBack
import RegexBuilder.Proofs.Resolved

namespace RegexBuilder.Description

open List Option

/-! ### Documented forms -/

/-- The documented counts, and the bounds that they stand for. -/
inductive CountForm : List Symbol → (min max : Int) → Prop
  | star : CountForm [.word "*"] 0 unbounded
  | plus : CountForm [.word "+"] 1 unbounded
  | optional : CountForm [.word "?"] 0 1
  | exactly (n : Nat) : CountForm [.word "\x7b", .int n, .word "\x7d"] n n
  | atLeast (n : Nat) : CountForm [.word "\x7b", .int n, .word ",", .word "\x7d"] n unbounded
  | between {n m : Nat} (h : n ≤ m) : CountForm [.word "\x7b", .int n, .word ",", .int m, .word "\x7d"] n m

/-- The symbol `lazy` behind bounds that are not greedy. -/
def lazySymbols (b : Bounds) : List Symbol := if b.greedy then [] else [Symbol.word "lazy"]

/-- The tokens are a documented quantifier, and what it stands for are the bounds `b`. -/
def SaysBounds (ts : List Token) (b : Bounds) : Prop :=
  ∃ cs, CountForm cs b.min b.max ∧ Forall₂ (Token.Writes IsWordKind) ts (cs ++ lazySymbols b)

/-- A word of the grammar or an integer. -/
def Symbol.IsBare : Symbol → Prop
  | int _ | word _ => True
  | string _ | ident _ => False

variable {cs : List Symbol} {min max : Int} {q : Quantifier} {b : Bounds} {ts : List Token} {e : Expr} {t : Term}
  {s : List Term}

theorem CountForm.isBare (h : CountForm cs min max) : ∀ s ∈ cs, s.IsBare := by
  cases h with
  | star | plus | optional => exact forall_mem_singleton.2 trivial
  | exactly | atLeast | between => simp [Symbol.IsBare]

/-- No documented form has two bounds without a comma. -/
theorem CountForm.ne_pair (h : CountForm cs min max) (n m : Nat) : cs ≠ (Count.braces n false (some m)).symbols := by
  cases h <;> simp [Count.symbols, Count.braces, optionSymbols]

theorem isBare_lazySymbols (b : Bounds) : ∀ s ∈ lazySymbols b, s.IsBare := by
  unfold lazySymbols
  split
  · exact fun s hs => nomatch hs
  · exact forall_mem_singleton.2 trivial

theorem Quantifier.isBare_symbols (q : Quantifier) : ∀ s ∈ q.symbols, s.IsBare := by
  have hint : ∀ o, ∀ s ∈ optionSymbols (fun n => [Symbol.int n]) o, s.IsBare := by
    intro o s hs
    cases o with
    | none => exact nomatch hs
    | some => exact mem_singleton.1 hs ▸ trivial
  have hword : ∀ (p : Bool) (w : Text), ∀ s ∈ if p then [Symbol.word w] else [], s.IsBare := by
    intro p w s hs
    cases p with
    | false => exact nomatch hs
    | true => exact mem_singleton.1 hs ▸ trivial
  refine forall_mem_append.2 ⟨?_, hword _ _⟩
  unfold Count.symbols
  split
  · exact forall_mem_singleton.2 trivial
  · simp only [cons_append, append_assoc, forall_mem_cons, forall_mem_append]
    exact ⟨trivial, hint _, hword _ _, hint _, trivial, nofun⟩

/-! ### What the tokens of a quantifier say -/

section

variable {ts : List Token} {ss ss' : List Symbol}

variable {u : Token} {s : Symbol}

/-- A word that is written as a word is no string. -/
theorem kind_ne_string_of_writes (hs : s.IsBare) (h : u.Writes IsWordKind s) : u.kind ≠ .string := by
  cases s with
  | string | ident => exact hs.elim
  | int => exact h.1 ▸ nofun
  | word w =>
    have hkind : u.kind = wordKind w := h.1
    rcases wordKind_eq_or w with hw | hw <;> simp [hkind, hw]

/-- A string is written for a word only, its own value. -/
theorem eq_word_of_string (hs : s.IsBare) (h : u.Writes IsReadKind s) (hkind : u.kind = .string) :
    s = .word u.value := by
  cases s with
  | string | ident => exact hs.elim
  | int => exact nomatch hkind.symm.trans h.1
  | word => exact congrArg Symbol.word h.2.symm

/-- A token that is not a string is written for one word or integer only. -/
theorem eq_of_writes {s' : Symbol} (hs : s.IsBare) (hs' : s'.IsBare) (h : u.Writes IsReadKind s)
    (h' : u.Writes IsWordKind s') : s = s' := by
  have hstring := kind_ne_string_of_writes hs' h'
  -- a word and an integer are never written as a token of the same kind
  have hkinds : ∀ {w}, u.kind = wordKind w → u.kind ≠ .int := by
    intro w hkind
    rcases wordKind_eq_or w with hw | hw <;> simp [hkind, hw]
  cases s with
  | string | ident => exact hs.elim
  | int =>
    cases s' with
    | string | ident => exact hs'.elim
    | int => exact congrArg Symbol.int (Except.ok.inj (h.2.symm.trans h'.2))
    | word => exact absurd h.1 (hkinds h'.1)
  | word =>
    cases s' with
    | string | ident => exact hs'.elim
    | int => exact absurd h'.1 (hkinds (h.1.resolve_right hstring))
    | word => exact congrArg Symbol.word (h.2.symm.trans h'.2)

theorem eq_of_forall₂_writes (h : Forall₂ (Token.Writes IsReadKind) ts ss)
    (h' : Forall₂ (Token.Writes IsWordKind) ts ss') (hss : ∀ s ∈ ss, s.IsBare) (hss' : ∀ s ∈ ss', s.IsBare) :
    ss = ss' := by
  induction h generalizing ss' with
  | nil => cases h'; rfl
  | cons hu _ ih =>
    cases h' with
    | cons hu' h' =>
      obtain ⟨hs, hss⟩ := forall_mem_cons.1 hss
      obtain ⟨hs', hss'⟩ := forall_mem_cons.1 hss'
      rw [eq_of_writes hs hs' hu hu', ih h' hss hss']

/-- Where no token is a string, words are written as words. -/
theorem writes_isWordKind (h : Forall₂ (Token.Writes IsReadKind) ts ss) (hts : ∀ u ∈ ts, u.kind ≠ .string)
    (hss : ∀ s ∈ ss, s.IsBare) : Forall₂ (Token.Writes IsWordKind) ts ss := by
  induction h with
  | nil => exact .nil
  | @cons u s ts ss hu _ ih =>
    obtain ⟨hkind, hts⟩ := forall_mem_cons.1 hts
    obtain ⟨hs, hss⟩ := forall_mem_cons.1 hss
    refine .cons ?_ (ih hts hss)
    cases s with
    | string | ident => exact hs.elim
    | int => exact hu
    | word => exact ⟨hu.1.resolve_right hkind, hu.2⟩

end

/-- **The bounds are those of the documented form,** unless a second bound follows the first without a comma. -/
theorem Quantifier.countForm_of_bounds (h : q.bounds = .ok b) (hcount : ∀ n m, q.count ≠ .braces n false (some m)) :
    CountForm q.count.symbols b.min b.max := by
  obtain ⟨⟨mark, min, comma, max⟩, isLazy⟩ := q
  cases mark with
  | some m =>
    cases m with
    | star =>
      cases h
      exact .star
    | plus =>
      cases h
      exact .plus
    | optional =>
      cases h
      exact .optional
  | none =>
    obtain ⟨n, hn, h⟩ := bind_eq_ok.1 h
    obtain rfl : min = some n := take_eq_ok.1 hn
    cases comma with
    | false =>
      cases max with
      | none =>
        cases h
        exact .exactly n
      | some m => exact absurd rfl (hcount n m)
    | true =>
      cases max with
      | none =>
        cases h
        exact .atLeast n
      | some =>
        dsimp only at h
        split at h
        · cases h
        · next hle =>
          cases h
          exact .between (Nat.le_of_not_lt hle)

theorem Quantifier.greedy_of_bounds (h : q.bounds = .ok b) : b.greedy = !q.isLazy := by
  unfold bounds at h
  split at h
  case h_4 =>
    obtain ⟨n, -, h⟩ := bind_eq_ok.1 h
    split at h
    case h_3 =>
      split at h
      · cases h
      · cases h
        rfl
    all_goals
      cases h
      rfl
  all_goals
    cases h
    rfl

theorem Quantifier.symbols_eq (h : q.bounds = .ok b) : q.symbols = q.count.symbols ++ lazySymbols b := by
  rw [symbols, lazySymbols, greedy_of_bounds h]
  cases q.isLazy <;> rfl

/-- **The tokens of a quantifier say its bounds,** unless they are `{n m}` or one of them is a string. -/
theorem saysBounds_iff (hts : Forall₂ (Token.Writes IsReadKind) ts q.symbols) (hb : q.bounds = .ok b) :
    SaysBounds ts b ↔ (∀ u ∈ ts, u.kind ≠ .string) ∧ ∀ n m, q.count ≠ .braces n false (some m) := by
  constructor
  · rintro ⟨cs, hcs, hwrites⟩
    have hbare : ∀ s ∈ cs ++ lazySymbols b, s.IsBare := forall_mem_append.2 ⟨hcs.isBare, isBare_lazySymbols b⟩
    refine ⟨fun u hu => ?_, fun n m hcount => ?_⟩
    · obtain ⟨s, hs, hus⟩ := exists_mem_of_forall₂ hwrites hu
      exact kind_ne_string_of_writes (hbare s hs) hus
    · have heq := eq_of_forall₂_writes hts hwrites q.isBare_symbols hbare
      rw [q.symbols_eq hb, hcount] at heq
      exact hcs.ne_pair n m (append_cancel_right heq).symm
  · rintro ⟨hstring, hcount⟩
    refine ⟨q.count.symbols, q.countForm_of_bounds hb hcount, ?_⟩
    rw [← q.symbols_eq hb]
    exact writes_isWordKind hts hstring q.isBare_symbols

/-- Two bounds without a comma say no bounds at all. -/
theorem not_saysBounds_pair {n m : Nat}
    (hts : Forall₂ (Token.Writes IsReadKind) ts (Count.braces n false (some m)).symbols) (b : Bounds) :
    ¬ SaysBounds ts b := by
  rintro ⟨cs, hcs, hwrites⟩
  have hbare : ∀ s ∈ cs ++ lazySymbols b, s.IsBare := forall_mem_append.2 ⟨hcs.isBare, isBare_lazySymbols b⟩
  have heq := eq_of_forall₂_writes hts hwrites
    (by simp [Count.symbols, Count.braces, optionSymbols, Symbol.IsBare]) hbare
  unfold lazySymbols at heq
  split at heq
  · exact hcs.ne_pair n m (heq.trans (List.append_nil cs)).symm
  · have hlast := congrArg List.getLast? heq
    simp [Count.symbols, Count.braces, optionSymbols] at hlast
    exact absurd hlast (by decide)

/-! ### Terms inside an expression -/

/-- The terms of an expression and of all expressions inside it. -/
def terms (e : Expr) : List Term := (exprs e).flatten.flatten

theorem mem_terms : t ∈ terms e ↔ ∃ s ∈ e, ∃ t' ∈ s, t = t' ∨ ∃ b ∈ t'.atom.bodies, t ∈ terms b := by
  simp only [terms, mem_flatten]
  constructor
  · rintro ⟨s, ⟨e', he', hs⟩, ht⟩
    rcases mem_exprs.1 he' with rfl | ⟨s', hs', t', ht', b, hb, he'⟩
    · exact ⟨s, hs, t, ht, .inl rfl⟩
    · exact ⟨s', hs', t', ht', .inr ⟨b, hb, s, ⟨e', he', hs⟩, ht⟩⟩
  · rintro ⟨s, hs, t', ht', rfl | ⟨b, hb, s', ⟨e', he', hs'⟩, ht⟩⟩
    · exact ⟨s, ⟨e, mem_exprs.2 (.inl rfl), hs⟩, ht'⟩
    · exact ⟨s', ⟨e', mem_exprs.2 (.inr ⟨s, hs, t', ht', b, hb, he'⟩), hs'⟩, ht⟩

/-- What holds of the terms of an expression, and passes on from inside their atoms, holds of all terms inside it. -/
theorem terms_induction {P : Expr → Term → Prop} (here : ∀ e s t, s ∈ e → t ∈ s → P e t)
    (inside : ∀ e s t b t', s ∈ e → t ∈ s → b ∈ t.atom.bodies → P b t' → P e t') {e : Expr} {t : Term}
    (h : t ∈ terms e) : P e t := by
  obtain ⟨s, hs, t', ht', rfl | ⟨b, hb, h⟩⟩ := mem_terms.1 h
  · exact here e s t hs ht'
  · exact inside e s t' b t hs ht' hb (terms_induction here inside h)
termination_by sizeOf e
decreasing_by exact sizeOf_body_lt hs ht' hb

/-! ### The symbols of a term -/

theorem termSymbols_isInfix (hs : s ∈ e) (ht : t ∈ s) : t.symbols <:+: exprSymbols e := by
  refine List.IsInfix.trans ?_ (sequenceSymbols_isInfix hs)
  rw [sequenceSymbols_eq]
  exact infix_of_mem_flatten (mem_map_of_mem ht)

theorem exprSymbols_isInfix {a : Atom} {b : Expr} (hb : b ∈ a.bodies) : exprSymbols b <:+: a.symbols := by
  -- behind a mark at the end of what comes before
  have hmark : ∀ {x y : List Symbol} {m : Symbol}, exprSymbols b <:+: x ++ m :: exprSymbols b ++ y :=
    ((suffix_cons ..).trans (suffix_append ..)).isInfix.trans (prefix_append ..).isInfix
  cases a with
  | parens =>
    obtain rfl := mem_singleton.1 hb
    rw [Atom.symbols]
    exact hmark (x := [])
  | group =>
    obtain rfl := mem_singleton.1 hb
    rw [Atom.symbols]
    exact hmark
  | modify =>
    obtain rfl := mem_singleton.1 hb
    rw [Atom.symbols]
    exact infix_append ..
  | cond =>
    rw [symbols_cond]
    rcases mem_cons.1 hb with rfl | hb
    · exact hmark.trans (prefix_append ..).isInfix
    · obtain rfl := mem_toList.1 hb
      exact hmark
  | _ => exact nomatch hb

/-- **The symbols of a term stand together in those of its expression,** however deep the term is nested. -/
theorem Term.symbols_isInfix (h : t ∈ terms e) : t.symbols <:+: exprSymbols e := by
  refine terms_induction (P := fun e t => t.symbols <:+: exprSymbols e) ?_ ?_ h
  · exact fun e s t => termSymbols_isInfix
  · intro e s t b t' hs ht hb ih
    have hatom : t.atom.symbols <:+: t.symbols := by
      obtain ⟨pos, a, q⟩ := t
      rw [Term.symbols]
      exact (prefix_append ..).isInfix
    exact ih.trans (((exprSymbols_isInfix hb).trans hatom).trans (termSymbols_isInfix hs ht))

/-! ### The trees of terms -/

section

variable {nodes : Text → Option NodeId} {g : Graph} {low : NodeId}

variable {r c : Ref} {n : Node} {t : Term} {ts : List Tree} {e : Expr} {s : List Term} {tree : Tree}

theorem down_of_holds (h : g.Holds low r n) (hc : c ∈ n.refs) : g.Down r c := by
  obtain ⟨i, rfl, -, hn⟩ := h
  exact (Graph.below_of_mem_refs hn hc).down_self hn

/-- The tree stands at a node below `r`, or at `r` itself. -/
def StandsBelow (g : Graph) (low : NodeId) (r : Ref) (t : Tree) : Prop := ∃ u, t.Stands g low Eq u ∧ g.Down r u

theorem StandsBelow.of_holds {t : Tree} (h : g.Holds low r n) (hc : c ∈ n.refs) (ht : t.Stands g low Eq c) :
    StandsBelow g low r t := ⟨c, ht, down_of_holds h hc⟩

theorem StandsBelow.trans {t t' : Tree} (h : StandsBelow g low r t)
    (ht : ∀ u, t.Stands g low Eq u → StandsBelow g low u t') : StandsBelow g low r t' := by
  obtain ⟨u, hu, hru⟩ := h
  obtain ⟨v, hv, huv⟩ := ht u hu
  exact ⟨v, hv, hru.trans huv⟩

/-- Trees stand below what they are combined to. -/
theorem standsBelow_of_collapse {combine : List Tree → Tree} (node : List Ref → Node)
    (hrefs : ∀ cs, (node cs).refs = cs) (hcombine : ∀ {ts r}, (combine ts).Stands g low Eq r →
      ∃ cs, g.Holds low r (node cs) ∧ Tree.AllStand g low Eq ts cs) (h : (collapse combine ts).Stands g low Eq r) :
    ∀ t ∈ ts, StandsBelow g low r t := by
  intro t ht
  have hall : (combine ts).Stands g low Eq r → StandsBelow g low r t := by
    intro h
    obtain ⟨cs, hr, hcs⟩ := hcombine h
    obtain ⟨c, hc, htc⟩ := exists_mem_of_forall₂ (Tree.allStand_iff.1 hcs) ht
    exact .of_holds hr ((hrefs cs).symm ▸ hc) htc
  match ts with
  | [] => cases ht
  | [u] =>
    cases mem_singleton.1 ht
    exact ⟨r, h, .refl r⟩
  | u :: u' :: rest => exact hall h

theorem forall₂_of_sequenceTrees (h : sequenceTrees nodes e = .ok ts) :
    Forall₂ (fun s t => ∃ us, termTrees nodes s = .ok us ∧ t = collapse .concat us) e ts := by
  induction e generalizing ts with
  | nil =>
    cases h
    exact .nil
  | cons s e ih =>
    obtain ⟨us, hus, h⟩ := bind_eq_ok.1 h
    obtain ⟨rest, hrest, h⟩ := bind_eq_ok.1 h
    cases h
    exact .cons ⟨us, hus, rfl⟩ (ih hrest)

theorem forall₂_of_termTrees {us : List Tree} (h : termTrees nodes s = .ok us) :
    Forall₂ (fun t u => t.tree nodes = .ok u) s us := by
  induction s generalizing us with
  | nil =>
    cases h
    exact .nil
  | cons t s ih =>
    obtain ⟨u, hu, h⟩ := bind_eq_ok.1 h
    obtain ⟨rest, hrest, h⟩ := bind_eq_ok.1 h
    cases h
    exact .cons hu (ih hrest)

/-- The tree of a term of an expression stands below that of the expression. -/
theorem standsBelow_term (hs : s ∈ e) (ht : t ∈ s) (htree : exprTree nodes e = .ok tree) (hr : tree.Stands g low Eq r) :
    ∃ u, t.tree nodes = .ok u ∧ StandsBelow g low r u := by
  obtain ⟨ts, hts, rfl⟩ := choice_eq_ok.1 htree
  obtain ⟨_, hbranch, us, hus, rfl⟩ := exists_mem_of_forall₂ (forall₂_of_sequenceTrees hts) hs
  obtain ⟨u, hu, htu⟩ := exists_mem_of_forall₂ (forall₂_of_termTrees hus) ht
  refine ⟨u, htu, ?_⟩
  have hbelow := standsBelow_of_collapse .alternation (fun _ => rfl) (fun h => by rwa [Tree.Stands] at h) hr
  refine (hbelow _ hbranch).trans fun v hv => ?_
  exact standsBelow_of_collapse .concat (fun _ => rfl) (fun h => by rwa [Tree.Stands] at h) hv u hu

/-- The tree of an expression in an atom stands below that of the atom. -/
theorem standsBelow_body {a : Atom} {b : Expr} (hb : b ∈ a.bodies) {pos : Position}
    (htree : a.tree nodes pos = .ok tree) (hr : tree.Stands g low Eq r) :
    ∃ u, exprTree nodes b = .ok u ∧ StandsBelow g low r u := by
  cases a with
  | parens =>
    obtain rfl := mem_singleton.1 hb
    obtain ⟨u, hu, h⟩ := bind_eq_ok.1 htree
    cases h
    rw [Tree.Stands] at hr
    obtain ⟨c, hc, huc⟩ := hr
    exact ⟨u, hu, .of_holds hc (mem_singleton.2 rfl) huc⟩
  | group =>
    obtain rfl := mem_singleton.1 hb
    obtain ⟨u, hu, h⟩ := bind_eq_ok.1 htree
    obtain ⟨how, -, h⟩ := bind_eq_ok.1 h
    cases h
    rw [Tree.Stands] at hr
    obtain ⟨c, hc, huc⟩ := hr
    exact ⟨u, hu, .of_holds hc (mem_singleton.2 rfl) huc⟩
  | modify =>
    obtain rfl := mem_singleton.1 hb
    obtain ⟨⟨on, off⟩, -, h⟩ := bind_eq_ok.1 htree
    obtain ⟨u, hu, h⟩ := bind_eq_ok.1 h
    cases h
    rw [Tree.Stands] at hr
    obtain ⟨c, hc, huc⟩ := hr
    exact ⟨u, hu, .of_holds hc (mem_singleton.2 rfl) huc⟩
  | cond test yes no =>
    cases no with
    | none =>
      obtain rfl := mem_singleton.1 hb
      obtain ⟨u, hu, h⟩ := bind_eq_ok.1 htree
      obtain ⟨c, -, h⟩ := bind_eq_ok.1 h
      cases h
      rw [Tree.Stands] at hr
      obtain ⟨e', yes', no', hc, -, huc, -⟩ := hr
      exact ⟨u, hu, .of_holds hc (by simp [Node.refs]) huc⟩
    | some =>
      obtain ⟨u, hu, h⟩ := bind_eq_ok.1 htree
      obtain ⟨v, hv, h⟩ := bind_eq_ok.1 h
      obtain ⟨c, -, h⟩ := bind_eq_ok.1 h
      cases h
      rw [Tree.Stands] at hr
      obtain ⟨e', yes', no', hc, -, huc, hvc⟩ := hr
      rcases mem_pair.1 hb with rfl | rfl
      · exact ⟨u, hu, .of_holds hc (by simp [Node.refs]) huc⟩
      · exact ⟨v, hv, .of_holds hc (by simp [Node.refs]) hvc⟩
  | _ => exact nomatch hb

/-- The tree of a term's atom stands below that of the term. -/
theorem standsBelow_atom (htree : t.tree nodes = .ok tree) (hr : tree.Stands g low Eq r) :
    ∃ pos u, t.atom.tree nodes pos = .ok u ∧ StandsBelow g low r u := by
  obtain ⟨pos, a, q⟩ := t
  obtain ⟨u, hu, h⟩ := bind_eq_ok.1 htree
  refine ⟨pos, u, hu, ?_⟩
  cases q with
  | none =>
    cases h
    exact ⟨r, hr, .refl r⟩
  | some =>
    obtain ⟨b, -, h⟩ := bind_eq_ok.1 h
    cases h
    rw [Tree.Stands] at hr
    obtain ⟨c, hc, huc⟩ := hr
    exact .of_holds hc (mem_singleton.2 rfl) huc

/-- **The tree of a term stands below that of the expression,** however deep the term is nested. -/
theorem exists_stands_term (h : t ∈ terms e) : ∀ {tree : Tree} {r : Ref},
    exprTree nodes e = .ok tree → tree.Stands g low Eq r → ∃ u, t.tree nodes = .ok u ∧ StandsBelow g low r u := by
  refine terms_induction (P := fun e t => ∀ {tree r}, exprTree nodes e = .ok tree → tree.Stands g low Eq r →
    ∃ u, t.tree nodes = .ok u ∧ StandsBelow g low r u) ?_ ?_ h
  · exact fun e s t hs ht tree r htree => standsBelow_term hs ht htree
  · intro e s t b t' hs ht hb ih tree r htree hr
    obtain ⟨u, hu, v, hv, hrv⟩ := standsBelow_term hs ht htree hr
    obtain ⟨pos, w, hw, x, hx, hvx⟩ := standsBelow_atom hu hv
    obtain ⟨body, hbody, y, hy, hxy⟩ := standsBelow_body hb hw hx
    obtain ⟨u', hu', z, hz, hyz⟩ := ih hbody hy
    exact ⟨u', hu', z, hz, ((hrv.trans hvx).trans hxy).trans hyz⟩

end

/-! ### Quantified terms of a description -/

/-- The quantified term of definition `k` is read from `ts`, where `written` stands for its quantifier `q`; below the
group of the definition is a node with the bounds `b` for the term's atom. -/
structure IsQuantified (ds : List Definition) (lib : Library) (ts : List Token) (k : Nat) (t : Term) (q : Quantifier)
    (written : List Token) (b : Bounds) : Prop where
  tokens : ∃ before atom after, ts = before ++ (atom ++ written) ++ after ∧
    Forall₂ (Token.Writes IsReadKind) atom t.atom.symbols
  quantifier : Forall₂ (Token.Writes IsReadKind) written q.symbols
  bounds : q.bounds = .ok b
  node : ∃ i c, lib.graph.Reaches (some k) i ∧ lib.graph.node? i = some (.quantified b c) ∧
    ∃ pos tree, t.atom.tree (nodeOf ds) pos = .ok tree ∧ tree.Stands lib.graph ds.length Eq c

/-- **Quantifiers mean what is written, but for two forms.** Every quantified term of a description that is loaded has
become a quantified node. Its tokens are one of the documented forms and say the bounds of that node, unless one of them
is a string or there are two bounds in braces without a comma. -/
theorem written_quantifier_iff {file src : Text} {lib : Library} (h : load file src = .ok lib) :
    ∃ ds ts e, parse file src = .ok ds ∧ tokens file src = .ok (ts ++ [e]) ∧ e.kind = .eof ∧
      ∀ k d, ds[k]? = some d → ∀ t ∈ terms d.expr, ∀ q, t.quantifier = some q →
        ∃ written b, IsQuantified ds lib ts k t q written b ∧
          (SaysBounds written b ↔
            (∀ u ∈ written, u.kind ≠ .string) ∧ ∀ n m, q.count ≠ .braces n false (some m)) := by
  obtain ⟨ds, hparse, hresolve⟩ := bind_eq_ok.1 h
  have hparse := mapError_eq_ok.1 hparse
  obtain ⟨ts, e, hts, he, hwrites⟩ := writes_of_parse hparse
  refine ⟨ds, ts, e, hparse, hts, he, fun k d hd t ht q hq => ?_⟩
  -- the tokens
  have hinfix : t.symbols <:+: symbols ds := by
    have hexpr : exprSymbols d.expr <:+: d.symbols := ⟨_, _, rfl⟩
    refine ((Term.symbols_isInfix ht).trans hexpr).trans (infix_of_mem_flatten (mem_map_of_mem ?_))
    exact mem_of_getElem? hd
  obtain ⟨pos, a, _⟩ := t
  cases hq
  obtain ⟨before, mid, after, rfl, hmid⟩ := exists_isInfix_of_forall₂ hwrites hinfix
  rw [Term.symbols] at hmid
  have hwritten := forall₂_drop_append _ _ _ hmid
  -- the node
  obtain ⟨-, hstands⟩ := exists_stands_of_resolve hresolve (areProper_true ds)
  obtain ⟨tree, r, htree, -, hgroup, hr⟩ := hstands k d hd
  obtain ⟨_, hterm, v, hv, hrv⟩ := exists_stands_term ht htree hr
  obtain ⟨u, hu, h⟩ := bind_eq_ok.1 hterm
  obtain ⟨b, hb, h⟩ := bind_eq_ok.1 h
  cases h
  have hb := locate_eq_ok.1 hb
  rw [Tree.Stands] at hv
  obtain ⟨c, ⟨i, rfl, -, hi⟩, huc⟩ := hv
  have hreaches : lib.graph.Reaches (some k) i := by
    have hbelow := (Graph.below_of_mem_refs hgroup (mem_singleton.2 rfl)).down hrv
    exact ⟨k, rfl, (hbelow i _ rfl hi).to_reflTransGen⟩
  refine ⟨_, b, ⟨⟨before, mid.take a.symbols.length, after, ?_, forall₂_take_append _ _ _ hmid⟩, hwritten, hb,
    i, c, hreaches, hi, pos, u, hu, huc⟩, saysBounds_iff hwritten hb⟩
  rw [take_append_drop]

/-- A quantifier in braces inside one that is a mark. -/
def nestedQuantifiers : Text := "pattern A = (\"a\"\x7b2,3\x7dlazy \"b\")+;"

theorem written_quantifier_iff_nestedQuantifiers :
    ∃ lib ds ts e d t written b, load [] nestedQuantifiers = .ok lib ∧ parse [] nestedQuantifiers = .ok ds ∧
      tokens [] nestedQuantifiers = .ok (ts ++ [e]) ∧ ds[0]? = some d ∧ t ∈ terms d.expr ∧
      t.quantifier = some ⟨.braces 2 true (some 3), true⟩ ∧
      IsQuantified ds lib ts 0 t ⟨.braces 2 true (some 3), true⟩ written b ∧ SaysBounds written b := by
  have hload : (load [] nestedQuantifiers).toOption.isSome = true := by decide +kernel
  have hterms : ((parse [] nestedQuantifiers).toOption.bind fun ds => ds[0]?.map fun d =>
      (terms d.expr).map Term.quantifier) =
        some [some ⟨.plus, false⟩, some ⟨.braces 2 true (some 3), true⟩, none] := by decide +kernel
  have hstrings : ((tokens [] nestedQuantifiers).toOption.map fun us => us.all fun u =>
      u.kind ≠ .string || u.value = "a" || u.value = "b") = some true := by decide +kernel
  obtain ⟨lib, hlib⟩ := isSome_iff_exists.1 hload
  have hlib := toOption_eq_some.1 hlib
  obtain ⟨ds, ts, e, hparse, hts, -, hall⟩ := written_quantifier_iff hlib
  rw [hparse] at hterms
  obtain ⟨d, hd, hterms⟩ := map_eq_some_iff.1 hterms
  obtain ⟨t, ht, hq⟩ := mem_map.1 (hterms ▸ mem_cons_of_mem _ (mem_cons_self ..) :
    some ⟨.braces 2 true (some 3), true⟩ ∈ (terms d.expr).map Term.quantifier)
  obtain ⟨written, b, hquantified, hsays⟩ := hall 0 d hd t ht _ hq
  refine ⟨lib, ds, ts, e, d, t, written, b, hlib, hparse, hts, hd, ht, hq, hquantified, hsays.2 ⟨?_, nofun⟩⟩
  intro u hu hkind
  -- the strings of the description are no words of the quantifier
  have hvalue : u.value = "a" ∨ u.value = "b" := by
    obtain ⟨before, atom, after, rfl, -⟩ := hquantified.tokens
    rw [hts] at hstrings
    have hu := all_eq_true.1 (Option.some.inj hstrings) u (by simp [hu])
    simpa [hkind] using hu
  have hwords : ∀ s ∈ Quantifier.symbols ⟨.braces 2 true (some 3), true⟩, s ≠ .word "a" ∧ s ≠ .word "b" := by decide
  obtain ⟨s, hs, hwrites⟩ := exists_mem_of_forall₂ hquantified.quantifier hu
  cases eq_word_of_string (Quantifier.isBare_symbols _ s hs) hwrites hkind
  rcases hvalue with hvalue | hvalue
  · exact (hwords _ hs).1 (congrArg Symbol.word hvalue)
  · exact (hwords _ hs).2 (congrArg Symbol.word hvalue)

/-- Two bounds in braces without a comma. -/
def pairOfBounds : Text := "pattern A = \"a\"\x7b2 3\x7d;"

/-- **A second bound without a comma is read and ignored.** -/
theorem second_bound_ignored : ∃ lib before written after e, load [] pairOfBounds = .ok lib ∧
    tokens [] pairOfBounds = .ok (before ++ written ++ after ++ [e]) ∧
    Forall₂ (Token.Writes IsReadKind) written [.word "\x7b", .int 2, .int 3, .word "\x7d"] ∧
    lib.graph.node? 2 = some (.quantified ⟨2, 2, true⟩ (some 1)) ∧
    lib.graph.render (some 0) = .ok ⟨"a\x7b2\x7d", false⟩ ∧ ∀ b, ¬ SaysBounds written b := by
  have hload : ((load [] pairOfBounds).toOption.map fun lib =>
      (lib.graph.node? 2, (lib.graph.render (some 0)).toOption)) =
        some (some (.quantified ⟨2, 2, true⟩ (some 1)), some ⟨"a\x7b2\x7d", false⟩) := by decide +kernel
  have hparse : (parse [] pairOfBounds).toOption.map symbols = some [.word "pattern", .ident "A", .word "=",
      .string "a", .word "\x7b", .int 2, .int 3, .word "\x7d", .word ";"] := by decide +kernel
  obtain ⟨lib, hlib, hgraph⟩ := map_eq_some_iff.1 hload
  obtain ⟨ds, hds, hsymbols⟩ := map_eq_some_iff.1 hparse
  obtain ⟨ts, e, hts, -, hwrites⟩ := writes_of_parse (toOption_eq_some.1 hds)
  have hinfix : (Count.braces 2 false (some 3)).symbols <:+: symbols ds := by
    rw [hsymbols]
    decide
  obtain ⟨before, written, after, rfl, hwritten⟩ := exists_isInfix_of_forall₂ hwrites hinfix
  exact ⟨lib, before, written, after, e, toOption_eq_some.1 hlib, hts, hwritten, congrArg Prod.fst hgraph,
    toOption_eq_some.1 (congrArg Prod.snd hgraph), not_saysBounds_pair hwritten⟩

end RegexBuilder.Description
