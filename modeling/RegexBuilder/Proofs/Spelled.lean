/-
# Symbols that are spelled

The tokens of a description that is written symbol by symbol spell its symbols, each word as a word (`Spells`). The
parts of the grammar that hold no expressions read the symbols that they write. They look at what follows only where
something may be left out: a quantifier, its `lazy`, the second half of a range of characters.
-/

import RegexBuilder.Proofs.Parsed
import RegexBuilder.Proofs.Unplaced

namespace RegexBuilder.Description

open List

open Description.Rule

/-! ### Tokens for symbols -/

/-- The kind of the tokens for the symbol. -/
def Symbol.kind : Symbol → TokenKind
  | string _ => .string
  | int _ => .int
  | ident _ => .ident
  | word w => wordKind w

/-- A token for the symbol may have the value. -/
def Symbol.HasValue (value : Text) : Symbol → Prop
  | string v => value = v
  | int n => integerValue value = .ok n
  | ident x => value = x
  | word w => value = w

/-- The tokens up to `rest` spell the symbols. -/
abbrev Spells : List Symbol → List Token → List Token → Prop := Reading IsWordKind

theorem wordKind_eq_or (w : Text) : wordKind w = .ident ∨ wordKind w = .punct := by
  unfold wordKind
  split
  · exact .inl rfl
  · exact .inr rfl

/-- No symbol is written as the end. -/
theorem Symbol.kind_ne_eof (s : Symbol) : s.kind ≠ .eof := by
  cases s with
  | word w => rcases wordKind_eq_or w with h | h <;> simp [kind, h]
  | string | int | ident => nofun

theorem kind_word_ne_string (w : Text) : (Symbol.word w).kind ≠ .string := by
  rcases wordKind_eq_or w with h | h <;> simp [Symbol.kind, h]

theorem kind_word_ne_int (w : Text) : (Symbol.word w).kind ≠ .int := by
  rcases wordKind_eq_or w with h | h <;> simp [Symbol.kind, h]

theorem not_hasValue_word {w w' : Text} (h : w ≠ w') : ¬ (Symbol.word w').HasValue w := h

section

variable {s : Symbol} {ss : List Symbol} {ts rest : List Token} {w v x : Text} {n : Nat}

section

variable (h : Spells (s :: ss) ts rest)

include h

/-- Where a symbol stands, a token of its kind and with its value stands. -/
theorem Spells.exists_cons : ∃ t mid, ts = t :: mid ∧ t.kind = s.kind ∧ s.HasValue t.value ∧ Spells ss mid rest := by
  obtain ⟨_, rfl, _ | ⟨ht, h⟩⟩ := h
  cases s <;> exact ⟨_, _, rfl, ht.1, ht.2, _, rfl, h⟩

/-- A word does not match at a symbol with another value. -/
theorem Spells.noMatch_word (hs : ¬ s.HasValue w) : Rule.word w ts = .noMatch := by
  obtain ⟨t, mid, rfl, -, hvalue, -⟩ := h.exists_cons
  exact noMatch_word fun heq => hs (heq ▸ hvalue)

theorem Spells.noMatch_ofKind {kind : TokenKind} (hs : s.kind ≠ kind) : ofKind kind ts = .noMatch := by
  obtain ⟨t, mid, rfl, hkind, -, -⟩ := h.exists_cons
  exact noMatch_ofKind (hkind ▸ hs)

/-- A rule for words does not match at a symbol that is none of them. -/
theorem Spells.noMatch_oneWord {α : Type} {spelling : α → Text} {words : List α}
    (hs : ∀ w ∈ words.map spelling, ¬ s.HasValue w) : Rule.oneWord spelling words ts = .noMatch := by
  obtain ⟨t, mid, rfl, -, hvalue, -⟩ := h.exists_cons
  exact noMatch_oneWord fun hmem => hs _ hmem hvalue

end

/-- Where a symbol stands there is a place. -/
theorem exists_placed_eq (hss : ss ≠ []) (h : Spells ss ts rest) :
    ∃ pos, ∀ {α : Type} (p : Position → Rule α), placed p ts = p pos ts := by
  obtain ⟨s, ss, rfl⟩ := exists_cons_of_ne_nil hss
  obtain ⟨t, mid, rfl, -⟩ := Spells.exists_cons h
  exact ⟨t.pos, fun p => rfl⟩

/-- Something stands first, and it is not the word. -/
def Lacks (w : Text) (ss : List Symbol) : Prop := ∃ s ss', ss = s :: ss' ∧ ¬ s.HasValue w

/-- A rule that begins with a word stops where the word is not. -/
theorem Lacks.stops {α : Type} {k : Token → Rule α} (hss : Lacks w ss) (h : Spells ss ts rest) :
    (Rule.word w >>= k).Stops ts := by
  obtain ⟨s, ss, rfl, hs⟩ := hss
  exact .inl (noMatch_bind (h.noMatch_word hs))

theorem lacks_int (hw : w ∈ [("-" : Text), ","]) : Lacks w (.int n :: ss) := by
  refine ⟨_, _, rfl, fun h => ?_⟩
  rcases mem_pair.1 hw with rfl | rfl <;> cases h

theorem lacks_word {w' : Text} (h : w ≠ w') : Lacks w (.word w' :: ss) :=
  ⟨_, _, rfl, not_hasValue_word h⟩

end

/-! ### Rules that meet symbols -/

/-- Where the tokens spell `ss` the rule matches up to those that spell `after`, and what it returns
is such that `Q`. -/
def Rule.Meets {α : Type} (r : Rule α) (ss after : List Symbol) (Q : α → Prop) : Prop :=
  ∀ ⦃ts rest⦄, Spells ss ts rest → ∃ a mid, r ts = .matched a mid ∧ Q a ∧ Spells after mid rest

/-- Where the tokens spell `ss` the rule matches again and again, up to those that spell `after`. -/
def Rule.Repeats {α : Type} (r : Rule α) (ss after : List Symbol) (Q : List α → Prop) : Prop :=
  ∀ ⦃ts rest⦄, Spells ss ts rest → ∃ as mid, r.Runs as ts mid ∧ r.Stops mid ∧ as.length ≤ ts.length ∧
    Q as ∧ Spells after mid rest

namespace Rule

section

variable {α β : Type} {r : Rule α} {rs : List (Rule α)} {k : α → Rule β} {a : α} {Q Q' : α → Prop}
  {P : β → Prop} {ss mid after : List Symbol} {w v x : Text} {n : Nat}

theorem Meets.pure (h : Q a) : (pure a : Rule α).Meets ss ss Q := fun ts _ hts => ⟨a, ts, rfl, h, hts⟩

theorem Meets.of_eq (h : ∀ ts, r ts = .matched a ts) : r.Meets ss ss (· = a) :=
  fun ts _ hts => ⟨a, ts, h ts, rfl, hts⟩

theorem Meets.mono (h : r.Meets ss after Q) (hQ : ∀ a, Q a → Q' a) : r.Meets ss after Q' := by
  intro ts rest hts
  obtain ⟨a, mid, ha, hQa, hmid⟩ := h hts
  exact ⟨a, mid, ha, hQ a hQa, hmid⟩

theorem Meets.bind (hr : r.Meets ss mid Q) (hk : ∀ a, Q a → (k a).Meets mid after P) : (r >>= k).Meets ss after P := by
  intro ts rest h
  obtain ⟨a, ts₁, ha, hQ, h⟩ := hr h
  obtain ⟨b, ts₂, hb, hP, h⟩ := hk a hQ h
  exact ⟨b, ts₂, matched_bind.2 ⟨a, ts₁, ha, hb⟩, hP, h⟩

theorem Meets.bind_eq (hr : r.Meets ss mid (· = a)) (hk : (k a).Meets mid after P) :
    (r >>= k).Meets ss after P := hr.bind fun _ hb => hb ▸ hk

/-- A word is read, and the symbols behind it are left. -/
theorem Meets.word : (Rule.word w).Meets (.word w :: ss) ss fun _ => True := by
  intro ts rest h
  obtain ⟨t, mid, rfl, hkind, hvalue, hmid⟩ := h.exists_cons
  exact ⟨t, mid, matched_word.2 ⟨rfl, hkind ▸ Symbol.kind_ne_eof _, hvalue⟩, trivial, hmid⟩

theorem Meets.word_bind {k : Token → Rule β} (hk : ∀ t, (k t).Meets ss after P) :
    (Rule.word w >>= k).Meets (.word w :: ss) after P := Meets.word.bind fun t _ => hk t

theorem Meets.string : Description.string.Meets (.string v :: ss) ss (· = v) := by
  intro ts rest h
  obtain ⟨t, mid, rfl, hkind, hvalue, hmid⟩ := h.exists_cons
  exact ⟨v, mid, matched_string.2 ⟨t, rfl, hkind, hvalue⟩, rfl, hmid⟩

theorem Meets.ident : Description.ident.Meets (.ident x :: ss) ss (· = x) := by
  intro ts rest h
  obtain ⟨t, mid, rfl, hkind, hvalue, hmid⟩ := h.exists_cons
  exact ⟨x, mid, matched_ident.2 ⟨t, rfl, hkind, hvalue⟩, rfl, hmid⟩

theorem Meets.int : (ofKind .int).Meets (.int n :: ss) ss fun t => integerValue t.value = .ok n := by
  intro ts rest h
  obtain ⟨t, mid, rfl, hkind, hvalue, hmid⟩ := h.exists_cons
  exact ⟨t, mid, matched_ofKind.2 ⟨rfl, hkind⟩, hvalue, hmid⟩

theorem Meets.oneWord {spelling : α → Text} {words : List α} (ha : a ∈ words) (hnodup : (words.map spelling).Nodup) :
    (Rule.oneWord spelling words).Meets (.word (spelling a) :: ss) ss (· = a) := by
  intro ts rest h
  obtain ⟨t, mid, rfl, hkind, hvalue, hmid⟩ := h.exists_cons
  exact ⟨a, mid, matched_oneWord ha hnodup (hkind ▸ Symbol.kind_ne_eof _) hvalue, rfl, hmid⟩

/-- A rule that is given a place reads what it reads at any place. -/
theorem Meets.placed {p : Position → Rule α} (hss : ss ≠ []) (hp : ∀ pos, (p pos).Meets ss after Q) :
    (Rule.placed p).Meets ss after Q := by
  intro ts rest h
  obtain ⟨pos, hpos⟩ := exists_placed_eq hss h
  rw [hpos]
  exact hp pos h

theorem Meets.firstOf_head (h : r.Meets ss after Q) : (firstOf (r :: rs)).Meets ss after Q := by
  intro ts rest hts
  obtain ⟨a, mid, ha, h⟩ := h hts
  exact ⟨a, mid, matched_firstOf.2 (.inl ha), h⟩

/-- A choice goes on behind a rule that stops. -/
theorem Meets.firstOf_tail (hr : ∀ ⦃ts rest⦄, Spells ss ts rest → r.Stops ts)
    (h : (firstOf rs).Meets ss after Q) : (firstOf (r :: rs)).Meets ss after Q := by
  intro ts rest hts
  obtain ⟨a, mid, ha, h⟩ := h hts
  exact ⟨a, mid, matched_firstOf.2 (.inr ⟨hr hts, matched_firstOf.1 ha⟩), h⟩

section

variable {Q : Option α → Prop}

/-- What is there is read, although it may be left out. -/
theorem Meets.option_some (h : r.Meets ss after fun a => Q (some a)) : (Rule.option r).Meets ss after Q := by
  intro ts rest hts
  obtain ⟨a, mid, ha, h⟩ := h hts
  exact ⟨some a, mid, matched_option.2 (.inl ⟨a, rfl, ha⟩), h⟩

theorem Meets.option_eq (h : r.Meets ss after (· = a)) : (Rule.option r).Meets ss after (· = some a) :=
  .option_some (h.mono fun _ hb => congrArg some hb)

/-- Where the rule stops, nothing is there. -/
theorem Meets.option_none (hQ : Q none) (hr : ∀ ⦃ts rest⦄, Spells ss ts rest → r.Stops ts) :
    (Rule.option r).Meets ss ss Q :=
  fun ts _ hts => ⟨none, ts, matched_option.2 (.inr ⟨rfl, rfl, hr hts⟩), hQ, hts⟩

end

theorem Meets.option_word {b : Bool} (hss : b = false → Lacks w ss) :
    (Rule.option (Rule.word w)).Meets ((if b then [.word w] else []) ++ ss) ss (·.isSome = b) := by
  cases b with
  | true => exact .option_some (Meets.word.mono fun _ _ => rfl)
  | false =>
    obtain ⟨s, ss, rfl, hs⟩ := hss rfl
    exact .option_none rfl fun _ _ h => .inl (h.noMatch_word hs)

variable {γ : Type} {f : α → List Symbol} {g : α → γ} {xs : List α}

/-- **A rule that reads each of some parts** reads them one after another, if it stops behind them. -/
theorem Meets.repeats (hne : ∀ x ∈ xs, f x ≠ []) (hstops : ∀ ⦃ts rest⦄, Spells after ts rest → r.Stops ts)
    (hr : ∀ x xs', x :: xs' <:+ xs →
      r.Meets (f x ++ (xs'.flatMap f ++ after)) (xs'.flatMap f ++ after) (g · = g x)) :
    r.Repeats (xs.flatMap f ++ after) after (List.map g · = xs.map g) := by
  intro ts rest h
  have hlength := h.length_eq
  obtain ⟨as, mid, hruns, hsame, h⟩ : ∃ as mid, r.Runs as ts mid ∧ as.map g = xs.map g ∧
      Spells after mid rest := by
    clear hlength hne
    induction xs generalizing ts with
    | nil => exact ⟨[], ts, rfl, rfl, h⟩
    | cons x xs ih =>
      rw [flatMap_cons, append_assoc] at h
      obtain ⟨a, ts₁, ha, hsame, h⟩ := hr x xs suffix_rfl h
      obtain ⟨as, mid, hruns, hsames, h⟩ := ih (fun y ys hys => hr y ys (hys.trans (suffix_cons x xs))) h
      refine ⟨a :: as, mid, ⟨ts₁, ha, hruns⟩, ?_, h⟩
      rw [map_cons, map_cons, hsame, hsames]
  refine ⟨as, mid, hruns, hstops h, ?_, hsame, h⟩
  have hle := length_le_flatMap hne
  have hsame := congrArg List.length hsame
  rw [length_map, length_map] at hsame
  rw [length_append] at hlength
  omega

theorem Repeats.many {Q : List α → Prop} (h : r.Repeats ss after Q) : (many r).Meets ss after Q := by
  intro ts rest hts
  obtain ⟨as, mid, hruns, hstops, hlength, h⟩ := h hts
  exact ⟨as, mid, matched_many hruns hstops hlength, h⟩

/-- A repetition that must match once reads one part or more. -/
theorem Repeats.many1 (h : r.Repeats ss after (List.map g · = xs.map g)) (hxs : xs ≠ []) :
    (many1 r).Meets ss after (List.map g · = xs.map g) := by
  intro ts rest hts
  obtain ⟨as, mid, hruns, hstops, hlength, hsame, h⟩ := h hts
  have hne : as ≠ [] := by
    rintro rfl
    exact hxs (map_eq_nil_iff.1 hsame.symm)
  exact ⟨as, mid, matched_many1 hne hruns hstops hlength, hsame, h⟩

end

end Rule

/-- **A number is read** with its sign. -/
theorem number_reads {x : Number} {ss : List Symbol} : number.Meets (x.symbols ++ ss) ss (· = x) := by
  rw [Number.symbols, append_assoc]
  refine (Meets.option_word fun _ => lacks_int (by decide)).bind fun o ho => Meets.int.bind fun t ht => ?_
  exact (Meets.of_eq fun ts => matched_integer.2 ⟨ht, rfl⟩).bind_eq (.pure (by rw [ho]))

/-! ### Quantifiers -/

section

variable {ss : List Symbol} {ts rest : List Token}

/-- A count in braces is read; its integers are looked at later. -/
theorem bracesCount_reads {min : Nat} {comma : Bool} {max : Option Nat} :
    bracesCount.Meets ((Count.braces min comma max).symbols ++ ss) ss
      fun raw => ∀ us, raw.values us = .matched (.braces min comma max) us := by
  simp only [Count.symbols, Count.braces, optionSymbols, cons_append, List.nil_append, append_assoc]
  have hcomma : comma = false →
      Lacks "," (optionSymbols (fun n => [Symbol.int n]) max ++ Symbol.word "\x7d" :: ss) := by
    intro _
    cases max with
    | some => exact lacks_int (by decide)
    | none => exact lacks_word (by decide)
  have hmax : (Rule.option (ofKind .int)).Meets
      (optionSymbols (fun n => [Symbol.int n]) max ++ Symbol.word "\x7d" :: ss) (.word "\x7d" :: ss)
      fun u => Option.Rel (fun t n => integerValue t.value = .ok n) u max := by
    cases max with
    | some => exact .option_some (Meets.int.mono fun t ht => .some ht)
    | none => exact .option_none .none fun _ _ h => .inl (Spells.noMatch_ofKind h (by decide))
  refine .word_bind fun _ => Meets.int.bind fun t ht => (Meets.option_word hcomma).bind fun o ho =>
    hmax.bind fun u hu => .word_bind fun _ => .pure fun us => ?_
  simp only [RawCount.values, matched_bind, matched_pure, matched_integer?]
  exact ⟨some min, us, ⟨.some ht, rfl⟩, max, us, ⟨hu, rfl⟩, by rw [ho], rfl⟩

/-- **A count is read** if it is a mark or has a first bound. -/
theorem count_reads {c : Count} (hc : c.IsFilled) : (firstOf [markCount, bracesCount]).Meets (c.symbols ++ ss) ss
    fun raw => ∀ us, raw.values us = .matched c us := by
  cases hc with
  | braces =>
    have hmarks : ∀ w ∈ countMarks, w ≠ "\x7b" := by decide
    refine .firstOf_tail (fun _ _ h => .inl ?_) (.firstOf_head bracesCount_reads)
    exact noMatch_bind (Spells.noMatch_oneWord h hmarks)
  | marked m =>
    exact .firstOf_head ((Meets.oneWord (by cases m <;> decide) (by decide)).bind_eq (.pure fun us => rfl))

/-- **A quantifier is read,** if it is lazy or no `lazy` follows it. -/
theorem quantifier_reads {q : Quantifier} (hq : q.count.IsFilled) (hss : q.isLazy = false → Lacks "lazy" ss) :
    quantifier.Meets (q.symbols ++ ss) ss (· = q) := by
  rw [Quantifier.symbols, append_assoc]
  exact (count_reads hq).bind fun raw hraw => (Meets.option_word hss).bind fun o ho =>
    (Meets.of_eq hraw).bind_eq (.pure (by rw [ho]))

/-- Where no mark and no integer in braces follows, there is no quantifier. -/
theorem quantifier_stops {s : Symbol} (h : Spells (s :: ss) ts rest)
    (hmarks : ∀ w ∈ countMarks, ¬ s.HasValue w)
    (hbraces : s.HasValue "\x7b" → ∃ s' ss', ss = s' :: ss' ∧ s'.kind ≠ .int) : quantifier.Stops ts := by
  refine stops_bind (stops_firstOf (forall_mem_cons.2 ⟨.inl ?_, forall_mem_singleton.2 ?_⟩))
  · exact noMatch_bind (Spells.noMatch_oneWord h hmarks)
  · obtain ⟨t, mid, rfl, hkind, hvalue, h⟩ := h.exists_cons
    by_cases ht : t.value = "\x7b"
    · obtain ⟨s', ss', rfl, hs'⟩ := hbraces (ht ▸ hvalue)
      exact stops_bind_of_matched (matched_word.2 ⟨rfl, hkind ▸ s.kind_ne_eof, ht⟩)
        (noMatch_bind (Spells.noMatch_ofKind h hs'))
    · exact .inl (noMatch_bind (noMatch_word ht))

end

/-! ### Sets -/

section

variable {ss : List Symbol} {ts rest : List Token}

/-- No second half of a range follows. -/
def LacksRangeEnd (ss : List Symbol) : Prop :=
  ∃ s ss', ss = s :: ss' ∧ (s.HasValue "-" → ∃ s' ss'', ss' = s' :: ss'' ∧ s'.kind ≠ .string)

/-- The rule for the second half of a range stops where none follows. -/
theorem rangeEnd_stops (hss : LacksRangeEnd ss) (h : Spells ss ts rest) : rangeEnd.Stops ts := by
  obtain ⟨s, ss, rfl, hdash⟩ := hss
  obtain ⟨t, mid, rfl, hkind, hvalue, h⟩ := h.exists_cons
  by_cases ht : t.value = "-"
  · obtain ⟨s', ss', rfl, hs'⟩ := hdash (ht ▸ hvalue)
    have hstring : Description.string mid = .noMatch := noMatch_bind (Spells.noMatch_ofKind h hs')
    exact stops_bind_of_matched (matched_word.2 ⟨rfl, hkind ▸ s.kind_ne_eof, ht⟩) hstring
  · exact .inl (noMatch_bind (noMatch_word ht))

variable {i : SetItem} {w : Text} {items : List PlacedItem}

/-- **An entry of a set is read.** -/
theorem item_reads (hi : i.IsFilled) (hss : ∀ x, i = .chars x → LacksRangeEnd ss) :
    (firstOf [charsItem, categoryItem, classItem]).Meets (i.symbols ++ ss) ss (· = i) := by
  have hchars : ∀ {w ss ts rest}, Spells (.word w :: ss) ts rest → charsItem.Stops ts := fun h =>
    .inl (noMatch_bind (noMatch_bind (Spells.noMatch_ofKind h (kind_word_ne_string _))))
  cases hi with
  | chars x =>
    have hlast : (Rule.option rangeEnd).Meets ss ss (· = none) := .option_none rfl fun _ _ => rangeEnd_stops (hss x rfl)
    exact .firstOf_head (Meets.string.bind_eq (hlast.bind_eq (.pure rfl)))
  | range first last =>
    have hlast : (Rule.option rangeEnd).Meets (.word "-" :: .string last :: ss) ss (· = some last) :=
      .option_eq (.word_bind fun _ => Meets.string)
    exact .firstOf_head (Meets.string.bind_eq (hlast.bind_eq (.pure rfl)))
  | category =>
    exact .firstOf_tail (fun _ _ => hchars) <| .firstOf_head <| .word_bind fun _ => .word_bind fun _ =>
      Meets.string.bind_eq <| .word_bind fun _ => .pure rfl
  | @cls w hw =>
    have hcategory : Lacks "category" (.word w.spelling :: ss) := lacks_word (by cases w <;> decide)
    exact .firstOf_tail (fun _ _ => hchars) <| .firstOf_tail (fun _ _ => hcategory.stops) <|
      .firstOf_head <| (Meets.oneWord hw (by decide)).bind_eq (.pure rfl)

/-- The symbols of entries begin with a string only if the first entry does. -/
theorem lacksRangeEnd_items {x : Text} {items : List SetItem} (hfilled : ∀ i ∈ items, i.IsFilled)
    (hitems : DashApart (.chars x :: items)) (hw : w ≠ "-") :
    LacksRangeEnd (items.flatMap SetItem.symbols ++ Symbol.word w :: ss) := by
  cases items with
  | nil => exact ⟨_, _, rfl, fun h => absurd h.symm hw⟩
  | cons i items =>
    cases hfilled i mem_cons_self with
    | chars v =>
      refine ⟨_, _, rfl, fun hv => ?_⟩
      obtain rfl : "-" = v := hv
      cases items with
      | nil => exact ⟨_, _, rfl, kind_word_ne_string _⟩
      | cons next items =>
        have hnext := hitems x next ⟨[], items, rfl⟩
        cases hfilled next (mem_cons_of_mem _ mem_cons_self) with
        | chars | range => cases hnext
        | category | cls => exact ⟨_, _, rfl, kind_word_ne_string _⟩
    | range => exact ⟨_, _, rfl, fun _ => ⟨_, _, rfl, kind_word_ne_string _⟩⟩
    | category => exact ⟨_, _, rfl, fun h => absurd h (not_hasValue_word (by decide))⟩
    | @cls which _ => exact ⟨_, _, rfl, fun h => absurd h (not_hasValue_word (by cases which <;> decide))⟩

theorem SetItem.IsFilled.symbols_ne_nil (hi : i.IsFilled) : i.symbols ≠ [] := by
  cases hi <;> exact cons_ne_nil _ _

/-- The entries of a set end at `except` or at the bracket. -/
theorem setItem_stops (hw : w ∈ [("except" : Text), "]"]) (h : Spells (.word w :: ss) ts rest) : setItem.Stops ts := by
  have hwords : ∀ w ∈ [("except" : Text), "]"], ("category" : Text) ≠ w ∧
      ∀ c ∈ ClassWord.inSets.map ClassWord.spelling, c ≠ w := by decide
  obtain ⟨hcategory, hclass⟩ := hwords w hw
  obtain ⟨pos, hpos⟩ := exists_placed_eq (cons_ne_nil _ _) h
  unfold Stops
  rw [setItem, hpos]
  refine stops_bind (stops_firstOf (forall_mem_cons.2 ⟨.inl ?_, forall_mem_cons.2 ⟨.inl ?_,
    forall_mem_singleton.2 (.inl ?_)⟩⟩))
  · exact noMatch_bind (noMatch_bind (Spells.noMatch_ofKind h (kind_word_ne_string _)))
  · exact noMatch_bind (Spells.noMatch_word h (not_hasValue_word hcategory))
  · exact noMatch_bind (Spells.noMatch_oneWord h hclass)

/-- **The entries of a set are read** one after another. -/
theorem setItems_repeat (hfilled : ∀ i ∈ items, i.item.IsFilled) (hitems : DashApart (items.map PlacedItem.item))
    (hw : w ∈ [("except" : Text), "]"]) : setItem.Repeats (itemSymbols items ++ Symbol.word w :: ss)
      (.word w :: ss) (List.map PlacedItem.unplaced · = items.map PlacedItem.unplaced) := by
  have hwords : ∀ w ∈ [("except" : Text), "]"], w ≠ "-" := by decide
  refine Meets.repeats (fun i hi => (hfilled i hi).symbols_ne_nil) (fun _ _ => setItem_stops hw) fun i is his => ?_
  have hi : i.item.IsFilled := hfilled i (his.subset mem_cons_self)
  have hend : ∀ x, i.item = .chars x →
      LacksRangeEnd (is.flatMap (fun i => i.item.symbols) ++ Symbol.word w :: ss) := by
    intro x hx
    rw [← flatMap_map]
    refine lacksRangeEnd_items (x := x) ?_ (fun y j hwithin => hitems y j (hwithin.trans ?_)) (hwords w hw)
    · exact forall_mem_map.2 fun j hj => hfilled j (his.subset (mem_cons_of_mem i hj))
    · rw [← hx]
      exact (his.map PlacedItem.item).isInfix
  refine .placed (append_ne_nil_of_left_ne_nil hi.symbols_ne_nil _) fun pos => ?_
  exact (item_reads hi hend).bind_eq (.pure rfl)

/-- A set that does not begin with the string `^` is not taken for a negated one. -/
theorem lacks_caret (hw : w ∈ [("except" : Text), "]"]) (hfilled : ∀ i ∈ items, i.item.IsFilled)
    (hitems : ∀ i ∈ items.head?, i.item.string? ≠ some "^") :
    Lacks "^" (itemSymbols items ++ Symbol.word w :: ss) := by
  cases items with
  | nil =>
    have hwords : ∀ w ∈ [("except" : Text), "]"], ("^" : Text) ≠ w := by decide
    exact lacks_word (hwords w hw)
  | cons i items =>
    obtain ⟨pos, i⟩ := i
    have hi : i.string? ≠ some "^" := hitems _ rfl
    cases (hfilled _ mem_cons_self : i.IsFilled) with
    | chars | range => exact ⟨_, _, rfl, fun h => hi (congrArg some h.symm)⟩
    | category => exact lacks_word (by decide)
    | @cls which _ => exact lacks_word (by cases which <;> decide)

theorem except_reads (hfilled : ∀ i ∈ items, i.item.IsFilled) (hitems : DashApart (items.map PlacedItem.item)) :
    (Rule.option exceptItems).Meets
      ((if items = [] then [] else .word "except" :: itemSymbols items) ++ Symbol.word "]" :: ss)
      (.word "]" :: ss) fun o => (o.getD []).map PlacedItem.unplaced = items.map PlacedItem.unplaced := by
  split
  · next hnil =>
    subst hnil
    exact .option_none rfl fun _ _ => (lacks_word (by decide)).stops
  · next hne => exact .option_some (.word_bind fun _ => (setItems_repeat hfilled hitems (by decide)).many1 hne)

/-- **A set is read** if none of its strings is taken for a word. -/
theorem setExpr_reads {x : SetExpr} (hfilled : ∀ i ∈ x.items ++ x.except, i.item.IsFilled)
    (hx : x.IsUnmistakable) : setExpr.Meets (x.symbols ++ ss) ss (·.unplaced = x.unplaced) := by
  obtain ⟨hitems, hexcept⟩ := forall_mem_append.1 hfilled
  simp only [SetExpr.symbols, cons_append, append_assoc, List.nil_append]
  obtain ⟨w, hw, ss', hnext⟩ : ∃ w ∈ [("except" : Text), "]"], ∃ ss',
      (if x.except = [] then [] else .word "except" :: itemSymbols x.except) ++ Symbol.word "]" :: ss =
        .word w :: ss' := by
    split
    · exact ⟨_, by decide, _, rfl⟩
    · exact ⟨_, by decide, _, rfl⟩
  have hleft : (Rule.option exceptItems).Meets _ (.word "]" :: ss) _ := except_reads hexcept hx.except
  rw [hnext] at hleft ⊢
  exact .word_bind fun _ => (Meets.option_word fun hneg => lacks_caret hw hitems (hx.caret hneg)).bind fun o ho =>
    (setItems_repeat hitems hx.items hw).many.bind fun items hsame => hleft.bind fun o' hsame' =>
      .word_bind fun _ => .pure (by simp only [SetExpr.unplaced, ho, hsame, hsame'])

end

/-! ### Atoms without an expression in them -/

section

variable {ss : List Symbol}

theorem setAtom_reads {x : SetExpr} (hfilled : (Atom.set x).IsGrammatical) (hx : x.IsUnmistakable) :
    setAtom.Meets ((Atom.set x).symbols ++ ss) ss (·.unplaced = (Atom.set x).unplaced) := by
  rw [Atom.symbols]
  refine (setExpr_reads hfilled hx).bind fun x' hsame => .pure ?_
  rw [Atom.unplaced, Atom.unplaced, hsame]

theorem zeros_reads {z : Option ZerosWord} :
    (Rule.option zeros).Meets (zerosSymbols z ++ Symbol.word ")" :: ss) (.word ")" :: ss) (· = z) := by
  cases z with
  | none => exact .option_none rfl fun _ _ => (lacks_word (by decide)).stops
  | some w => exact .option_eq (.word_bind fun _ => .oneWord (by cases w <;> decide) (by decide))

/-- **A numeric range is read.** -/
theorem rangeAtom_reads {min max : Number} {z : Option ZerosWord} :
    rangeAtom.Meets ((Atom.range min max z).symbols ++ ss) ss (· = .range min max z) := by
  simp only [Atom.symbols, cons_append, append_assoc, List.nil_append]
  exact .word_bind fun _ => .word_bind fun _ => number_reads.bind_eq <| .word_bind fun _ =>
    number_reads.bind_eq <| zeros_reads.bind_eq <| .word_bind fun _ => .pure rfl

theorem leafAtom_reads {w : LeafWord} {arg : Text} :
    leafAtom.Meets ((Atom.leaf w arg).symbols ++ ss) ss (· = .leaf w arg) := by
  rw [Atom.symbols]
  exact (Meets.oneWord (by cases w <;> decide) (by decide)).bind_eq <| .word_bind fun _ =>
    Meets.string.bind_eq <| .word_bind fun _ => .pure rfl

/-- A reference to a group is read; its number is looked at later. -/
theorem groupRef_reads {x : GroupRef} (hx : x.IsFilled) : (firstOf [groupNumber, groupName]).Meets (x.symbols ++ ss) ss
    fun raw => ∀ us, raw.value us = .matched x us := by
  cases hx with
  | numbered n =>
    refine .firstOf_head (Meets.int.bind fun t ht => .pure fun us => ?_)
    exact matched_bind.2 ⟨some n, us, matched_integer?.2 ⟨.some ht, rfl⟩, rfl⟩
  | named =>
    refine .firstOf_tail (fun _ _ h => .inl ?_) (.firstOf_head (Meets.ident.bind_eq (.pure fun us => rfl)))
    exact noMatch_bind (Spells.noMatch_ofKind h nofun)

/-- **A backreference is read.** -/
theorem backrefAtom_reads {x : GroupRef} (hx : x.IsFilled) :
    backrefAtom.Meets ((Atom.backref x).symbols ++ ss) ss (· = .backref x) := by
  simp only [Atom.symbols, cons_append, append_assoc, List.nil_append]
  exact .word_bind fun _ => .word_bind fun _ => (groupRef_reads hx).bind fun raw hraw => .word_bind fun _ =>
    (Meets.of_eq hraw).bind_eq (.pure rfl)

end

end RegexBuilder.Description
