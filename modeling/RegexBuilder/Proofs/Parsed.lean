/-
# What is read is what was written

The symbols of what a grammar rule matches are those of the tokens that it took, in order (`parse_reads`). A word of
the grammar may have been written as a string, since rules look at the value of a token for it. The same induction
shows what descriptions never come out of a file: strings that would have been taken for words where they stand.
-/

import RegexBuilder.Proofs.Layout
import RegexBuilder.Proofs.Matched

namespace RegexBuilder.Description

open List Option

open Description.Rule

/-- A word may be written as any token but the end. -/
def IsKind (_ : Text) (k : TokenKind) : Prop := k ≠ .eof

/-- If no identifier among the tokens is empty, those up to `rest` are written for the symbols. -/
def Reads (ss : List Symbol) (ts rest : List Token) : Prop :=
  (∀ t ∈ ts, t.kind = .ident → t.value ≠ []) → Reading IsKind ss ts rest

section

variable {ss ss' : List Symbol} {s : Symbol} {t : Token} {ts mid rest : List Token}

theorem Reads.nil (ts : List Token) : Reads [] ts ts := fun _ => .nil ts

theorem Reads.append (h : Reads ss ts mid) (h' : Reads ss' mid rest) : Reads (ss ++ ss') ts rest := by
  intro hts
  have hmid := h hts
  obtain ⟨taken, rfl, -⟩ := id hmid
  exact hmid.append (h' fun t ht => hts t (mem_append_right taken ht))

theorem Reads.singleton (ht : t.Writes IsKind s) : Reads [s] (t :: rest) rest := fun _ => .singleton ht

end

/-- The symbols of what the rule matches are read from the tokens that it takes. -/
def Rule.Takes {α : Type} (r : Rule α) (f : α → List Symbol) : Prop :=
  ∀ {ts a rest}, r ts = .matched a rest → Reads (f a) ts rest

/-! ### Words, strings and integers -/

/-- A word is read from a token with its value. -/
theorem word_takes (w : Text) : (word w).Takes fun _ => [.word w] := by
  intro ts t rest h
  obtain ⟨rfl, hkind, hvalue⟩ := matched_word.1 h
  exact .singleton ⟨hkind, hvalue⟩

variable {α : Type} {ts rest mid mid' : List Token} {v : Text} {t : Token} {raw : RawCount} {c : Count} {i : SetItem}
  {a : Atom} {depth : Nat} {ds : List Definition}

theorem oneWord_takes {spelling : α → Text} {words : List α} :
    (oneWord spelling words).Takes fun w => [.word (spelling w)] := by
  intro ts w rest h
  obtain ⟨-, t, rfl, hkind, hvalue⟩ := of_matched_oneWord h
  exact .singleton ⟨hkind, hvalue⟩

theorem matched_string : string ts = .matched v rest ↔ ∃ t, ts = t :: rest ∧ t.kind = .string ∧ t.value = v := by
  simp only [string, matched_bind, matched_pure, matched_ofKind]
  grind

theorem matched_ident {x : Text} :
    ident ts = .matched x rest ↔ ∃ t, ts = t :: rest ∧ t.kind = .ident ∧ t.value = x := by
  simp only [ident, matched_bind, matched_pure, matched_ofKind]
  grind

theorem string_takes : string.Takes fun v => [.string v] := by
  intro ts v rest h
  obtain ⟨t, rfl, hkind, hvalue⟩ := matched_string.1 h
  exact .singleton ⟨hkind, hvalue⟩

theorem ident_takes : ident.Takes fun x => [.ident x] := by
  intro ts x rest h
  obtain ⟨t, rfl, hkind, hvalue⟩ := matched_ident.1 h
  exact .singleton ⟨hkind, hvalue⟩

/-- What may be left out has no symbols if it is. -/
theorem option_takes {r : Rule α} {f : α → List Symbol} (hr : r.Takes f) : (Rule.option r).Takes (optionSymbols f) := by
  intro ts o rest h
  rcases matched_option.1 h with ⟨a, rfl, ha⟩ | ⟨rfl, rfl, -⟩
  · exact hr ha
  · exact .nil ts

theorem optionWord_takes (w : Text) :
    (Rule.option (word w)).Takes fun o => if o.isSome then [.word w] else [] := by
  intro ts o rest h
  have hreading := option_takes (word_takes w) h
  cases o <;> exact hreading

/-- An integer is read if it is not too large. -/
theorem matched_integer {n : Nat} : integer t ts = .matched n rest ↔ integerValue t.value = .ok n ∧ ts = rest := by
  cases hvalue : integerValue t.value with
  | ok => simp only [integer, hvalue, matched_done, Except.ok.injEq]
  | error => simp [integer, hvalue, Rule.fail]

theorem matched_integer? {o : Option Token} {m : Option Nat} : integer? o ts = .matched m rest ↔
    Option.Rel (fun t n => integerValue t.value = .ok n) o m ∧ ts = rest := by
  cases o with
  | none =>
    rw [integer?, matched_done]
    constructor
    · rintro ⟨rfl, rfl⟩
      exact ⟨.none, rfl⟩
    · rintro ⟨⟨⟩, rfl⟩
      exact ⟨rfl, rfl⟩
  | some =>
    simp only [integer?, matched_bind, matched_pure, matched_integer]
    constructor
    · rintro ⟨n, _, ⟨hn, rfl⟩, rfl, rfl⟩
      exact ⟨.some hn, rfl⟩
    · rintro ⟨⟨hn⟩, rfl⟩
      exact ⟨_, _, ⟨hn, rfl⟩, rfl, rfl⟩

/-- A number is read with its sign. -/
theorem number_takes : number.Takes Number.symbols := by
  intro ts n rest h
  simp only [number, matched_bind, matched_pure, matched_integer, matched_ofKind] at h
  obtain ⟨sign, _, hsign, t, _, ⟨rfl, hkind⟩, v, _, ⟨hvalue, rfl⟩, rfl, rfl⟩ := h
  exact (optionWord_takes "-" hsign).append (.singleton ⟨hkind, hvalue⟩)

/-! ### Quantifiers -/

/-- A mark is a count of its own. -/
theorem markCount_takes (h : markCount ts = .matched raw rest) :
    ∃ m, raw = ⟨some m, none, false, none⟩ ∧ Reads (Count.marked m).symbols ts rest := by
  simp only [markCount, matched_bind, matched_pure] at h
  obtain ⟨m, _, hm, rfl, rfl⟩ := h
  exact ⟨m, rfl, oneWord_takes hm⟩

/-- A count in braces is read once the values of its integers are known, and it has a first bound. -/
theorem bracesCount_takes (h : bracesCount ts = .matched raw mid) (hvalues : raw.values mid' = .matched c rest) :
    Reads c.symbols ts mid ∧ c.IsFilled ∧ mid' = rest := by
  simp only [bracesCount, matched_bind, matched_pure, matched_ofKind] at h
  obtain ⟨_, _, hopen, t, ts₁, ⟨rfl, hkind⟩, comma, ts₂, hcomma, max, ts₃, hmax, _, _, hclose, rfl, rfl⟩ := h
  simp only [RawCount.values, matched_bind, matched_pure, matched_integer?] at hvalues
  obtain ⟨_, _, ⟨⟨hn⟩, rfl⟩, m, _, ⟨hm, rfl⟩, rfl, rfl⟩ := hvalues
  refine ⟨?_, .braces _ _ _, rfl⟩
  have hmax' : Reads (optionSymbols (fun n => [.int n]) m) ts₂ ts₃ := by
    rcases matched_option.1 hmax with ⟨u, rfl, hu⟩ | ⟨rfl, rfl, -⟩
    · obtain ⟨rfl, hkind'⟩ := matched_ofKind.1 hu
      cases hm with
      | some hm => exact .singleton ⟨hkind', hm⟩
    · cases hm
      exact .nil ts₂
  have hmin : Reads [.int _] (t :: ts₁) ts₁ := .singleton ⟨hkind, hn⟩
  exact (((word_takes _ hopen).append hmin).append (optionWord_takes _ hcomma)).append hmax'
    |>.append (word_takes _ hclose)

/-- The mark or the bounds of a quantifier are set, and no `lazy` behind it is left over. -/
theorem quantifier_takes {q : Quantifier} (h : quantifier ts = .matched q rest) :
    Reads q.symbols ts rest ∧ q.count.IsFilled ∧ (q.isLazy = false → (word "lazy").Stops rest) := by
  simp only [quantifier, matched_bind, matched_pure, matched_firstOf, FirstMatch] at h
  obtain ⟨raw, mid, hraw, l, mid', hlazy, c, last, hvalues, rfl, rfl⟩ := h
  have hcount : Reads c.symbols ts mid ∧ c.IsFilled ∧ mid' = last := by
    rcases hraw with hmark | ⟨-, hbraces | hnever⟩
    · obtain ⟨m, rfl, hreading⟩ := markCount_takes hmark
      simp only [RawCount.values, matched_bind, matched_pure, matched_integer?] at hvalues
      obtain ⟨_, _, ⟨⟨⟩, rfl⟩, _, _, ⟨⟨⟩, rfl⟩, rfl, rfl⟩ := hvalues
      exact ⟨hreading, .marked m, rfl⟩
    · exact bracesCount_takes hbraces hvalues
    · exact hnever.2.elim
  obtain ⟨hreading, hfilled, rfl⟩ := hcount
  refine ⟨hreading.append (optionWord_takes _ hlazy), hfilled, fun hnot => ?_⟩
  rcases matched_option.1 hlazy with ⟨t, rfl, -⟩ | ⟨rfl, rfl, hstops⟩
  · cases hnot
  · exact hstops

/-- A mark is always read as a quantifier. -/
theorem not_stops_quantifier (hkind : t.kind ≠ .eof) (hmark : t.value ∈ countMarks) :
    ¬ quantifier.Stops (t :: ts) := by
  obtain ⟨m, hm, hvalue⟩ := mem_map.1 hmark
  have hcount : markCount (t :: ts) = .matched ⟨some m, none, false, none⟩ ts :=
    matched_bind.2 ⟨m, ts, matched_oneWord hm (by decide) hkind hvalue.symm, matched_pure.2 ⟨rfl, rfl⟩⟩
  obtain ⟨o, rest, hlazy⟩ := exists_matched_option_word "lazy" ts
  have hq : quantifier (t :: ts) = .matched ⟨.marked m, o.isSome⟩ rest :=
    matched_bind.2 ⟨_, _, matched_firstOf.2 (.inl hcount), matched_bind.2 ⟨o, rest, hlazy,
      matched_bind.2 ⟨.marked m, rest, rfl, matched_pure.2 ⟨rfl, rfl⟩⟩⟩⟩
  exact not_stops_of_matched hq

/-! ### Sets -/

theorem matched_rangeEnd : rangeEnd ts = .matched v rest ↔
    ∃ t u, ts = t :: u :: rest ∧ t.kind ≠ .eof ∧ t.value = "-" ∧ u.kind = .string ∧ u.value = v := by
  simp only [rangeEnd, matched_bind, matched_word, matched_string]
  grind

/-- What the entry `i`, read from `ts` up to `rest`, has to do with the tokens. -/
structure SetItem.IsRead (i : SetItem) (ts rest : List Token) : Prop where
  reading : Reads i.symbols ts rest
  filled : i.IsFilled
  string : ∀ v, i.string? = some v → ∃ t us, ts = t :: us ∧ t.kind = .string ∧ t.value = v
  chars : ∀ x, i = .chars x → ∃ t, ts = t :: rest ∧ t.kind = .string ∧ t.value = x
  apart : ∀ x, i = .chars x → rangeEnd.Stops rest

/-- Characters are read from one string, or from two with a `-` between them. -/
theorem charsItem_isRead (h : charsItem ts = .matched i rest) : i.IsRead ts rest := by
  simp only [charsItem, matched_bind, matched_pure] at h
  obtain ⟨first, mid, hfirst, last, _, hlast, rfl, rfl⟩ := h
  obtain ⟨t, rfl, ht⟩ := matched_string.1 hfirst
  rcases matched_option.1 hlast with ⟨v, rfl, hv⟩ | ⟨rfl, rfl, hstops⟩
  · obtain ⟨u, u', rfl, hkind, hvalue, hkind', hvalue'⟩ := matched_rangeEnd.1 hv
    refine ⟨?_, .range first v, fun v hv => ⟨t, _, rfl, by cases hv; exact ht⟩, nofun, nofun⟩
    exact fun _ => .cons ht (.cons ⟨hkind, hvalue⟩ (.singleton ⟨hkind', hvalue'⟩))
  · refine ⟨.singleton ht, .chars first, fun v hv => ⟨t, _, rfl, by cases hv; exact ht⟩, ?_, fun _ _ => hstops⟩
    rintro x ⟨⟩
    exact ⟨t, rfl, ht⟩

theorem categoryItem_isRead (h : categoryItem ts = .matched i rest) : i.IsRead ts rest := by
  simp only [categoryItem, matched_bind, matched_pure] at h
  obtain ⟨_, _, hword, _, _, hopen, name, _, hname, _, _, hclose, rfl, rfl⟩ := h
  refine ⟨?_, .category name, nofun, nofun, nofun⟩
  exact ((word_takes _ hword).append (word_takes _ hopen)).append (string_takes hname)
    |>.append (word_takes _ hclose)

theorem classItem_isRead (h : classItem ts = .matched i rest) : i.IsRead ts rest := by
  simp only [classItem, matched_bind, matched_pure] at h
  obtain ⟨w, _, hw, rfl, rfl⟩ := h
  exact ⟨oneWord_takes hw, .cls (of_matched_oneWord hw).1, nofun, nofun, nofun⟩

theorem setItem_isRead {i : PlacedItem} (h : setItem ts = .matched i rest) : i.item.IsRead ts rest := by
  obtain ⟨pos, h⟩ := exists_of_matched_placed h
  simp only [matched_bind, matched_pure, matched_firstOf] at h
  obtain ⟨item, _, hitem, rfl, rfl⟩ := h
  obtain ⟨r, hr, hitem⟩ := hitem.exists_mem
  simp only [mem_cons, not_mem_nil, or_false] at hr
  rcases hr with rfl | rfl | rfl
  · exact charsItem_isRead hitem
  · exact categoryItem_isRead hitem
  · exact classItem_isRead hitem

/-- The entries of a set, one after another. -/
theorem setItems_read {items : List PlacedItem} (h : setItem.Runs items ts rest) :
    Reads (itemSymbols items) ts rest ∧ (∀ i ∈ items, i.item.IsFilled) ∧
      DashApart (items.map PlacedItem.item) := by
  induction items generalizing ts with
  | nil =>
    obtain rfl : ts = rest := h
    refine ⟨.nil ts, nofun, fun x i hwithin => ?_⟩
    simpa using hwithin.length_le
  | cons i items ih =>
    obtain ⟨mid, hi, hruns⟩ := h
    have hread := setItem_isRead hi
    obtain ⟨hreading, hfilled, hapart⟩ := ih hruns
    refine ⟨hread.reading.append hreading, forall_mem_cons.2 ⟨hread.filled, hfilled⟩, ?_⟩
    intro x j hwithin
    rcases infix_cons_iff.1 hwithin with hpre | hwithin
    · -- the entry, a `-` and a string: they would have been read as a range
      obtain ⟨hx, i₂, i₃, others, rfl, hdash, rfl⟩ : i.item = .chars x ∧ ∃ i₂ i₃ others,
          items = i₂ :: i₃ :: others ∧ i₂.item = .chars "-" ∧ i₃.item = j := by
        rcases items with _ | ⟨i₂, _ | ⟨i₃, others⟩⟩
        · simp at hpre
        · simp at hpre
        · simp only [map_cons, cons_prefix_cons] at hpre
          exact ⟨hpre.1.symm, i₂, i₃, others, rfl, hpre.2.1.symm, hpre.2.2.1.symm⟩
      obtain ⟨ts₂, h₂, ts₃, h₃, -⟩ := hruns
      by_contra hne
      obtain ⟨v, hv⟩ := ne_none_iff_exists'.1 hne
      obtain ⟨u, us, rfl, hkind', -⟩ := (setItem_isRead h₃).string v hv
      obtain ⟨t, rfl, hkind, hvalue⟩ := (setItem_isRead h₂).chars "-" hdash
      have hrange : rangeEnd (t :: u :: us) = .matched u.value us :=
        matched_rangeEnd.2 ⟨t, u, rfl, by simp [hkind], hvalue, hkind', rfl⟩
      exact not_stops_of_matched hrange (hread.apart x hx)
    · exact hapart x j hwithin

/-- **A set is read from its symbols,** and no string in it was taken for a word. -/
theorem setExpr_read {s : SetExpr} (h : setExpr ts = .matched s rest) :
    Reads s.symbols ts rest ∧ s.IsUnmistakable ∧ (Atom.set s).IsGrammatical := by
  simp only [setExpr, matched_bind, matched_pure] at h
  obtain ⟨_, ts₁, hopen, negated, ts₂, hnegated, items, ts₃, hitems, except, ts₄, hexcept, _, _, hclose, rfl, rfl⟩ := h
  obtain ⟨hreading, hfilled, hapart⟩ := setItems_read (runs_of_matched_many hitems)
  have hexcept : Reads (if except.getD [] = [] then [] else
      .word "except" :: itemSymbols (except.getD [])) ts₃ ts₄ ∧
      (∀ i ∈ except.getD [], i.item.IsFilled) ∧
      DashApart ((except.getD []).map PlacedItem.item) := by
    rcases matched_option.1 hexcept with ⟨more, rfl, hmore⟩ | ⟨rfl, rfl, -⟩
    · simp only [exceptItems, matched_bind] at hmore
      obtain ⟨_, _, hword, hmany⟩ := hmore
      obtain ⟨hne, hruns⟩ := runs_of_matched_many1 hmany
      obtain ⟨hreading, hfilled, hapart⟩ := setItems_read hruns
      rw [getD_some, if_neg hne]
      exact ⟨(word_takes _ hword).append hreading, hfilled, hapart⟩
    · exact ⟨.nil _, nofun, fun x i hwithin => by simpa using hwithin.length_le⟩
  refine ⟨?_, ⟨fun hnot i hi => ?_, hapart, hexcept.2.2⟩, ?_⟩
  · exact (((word_takes _ hopen).append (optionWord_takes _ hnegated)).append hreading).append hexcept.1
      |>.append (word_takes _ hclose)
  · obtain ⟨others, rfl⟩ : ∃ others, items = i :: others := List.head?_eq_some_iff.1 hi
    obtain ⟨mid, hfirst, -⟩ := runs_of_matched_many hitems
    rintro hcaret
    obtain ⟨t, us, rfl, hkind, hvalue⟩ := (setItem_isRead hfirst).string _ hcaret
    rcases matched_option.1 hnegated with ⟨_, rfl, -⟩ | ⟨rfl, rfl, hstops⟩
    · cases hnot
    · exact not_stops_word (by simp [hkind]) hvalue hstops
  · exact fun i hi => (mem_append.1 hi).elim (hfilled i) (hexcept.2.1 i)

/-! ### Expressions that are read -/

/-- What holds of an expression that is read, those inside it apart. -/
def Expr.IsRead (e : List (List Term)) : Prop :=
  Expr.IsGrammatical e ∧ ∀ s ∈ e, Sequence.IsUnmistakable s

/-- What holds of an atom that is read. -/
structure Atom.IsRead (a : Atom) : Prop where
  grammatical : a.IsGrammatical
  set : ∀ x, a = .set x → x.IsUnmistakable
  bodies : ∀ b ∈ a.bodies, Everywhere Expr.IsRead b

/-- What holds of a sequence that is read. -/
structure Sequence.IsRead (s : List Term) : Prop where
  ne_nil : s ≠ []
  terms : s.IsChain fun t next => ∀ v, next.atom = .literal v → ¬ t.Swallows v
  atoms : ∀ t ∈ s, t.atom.IsRead
  counts : ∀ t ∈ s, ∀ q ∈ t.quantifier, q.count.IsFilled

/-- What is read is read sequence by sequence. -/
theorem everywhere_isRead_iff {e : Expr} : Everywhere Expr.IsRead e ↔ e ≠ [] ∧ ∀ s ∈ e, Sequence.IsRead s := by
  rw [everywhere_iff]
  constructor
  · rintro ⟨⟨⟨hne, hgrammatical⟩, hunmistakable⟩, hbodies⟩
    refine ⟨hne, fun s hs => ⟨(hgrammatical s hs).1, (hunmistakable s hs).terms, fun t ht => ?_, fun t ht => ?_⟩⟩
    · exact ⟨((hgrammatical s hs).2 t ht).atom, (hunmistakable s hs).sets t ht, hbodies s hs t ht⟩
    · exact ((hgrammatical s hs).2 t ht).count
  · rintro ⟨hne, hread⟩
    refine ⟨⟨⟨hne, fun s hs => ⟨(hread s hs).ne_nil, fun t ht => ?_⟩⟩, fun s hs => ?_⟩, ?_⟩
    · exact ⟨((hread s hs).atoms t ht).grammatical, (hread s hs).counts t ht⟩
    · exact ⟨(hread s hs).terms, fun t ht => ((hread s hs).atoms t ht).set⟩
    · exact fun s hs t ht => ((hread s hs).atoms t ht).bodies

/-- Each atom that the rule matches is read from its symbols. -/
def Rule.ReadsAtoms (r : Rule Atom) : Prop :=
  ∀ {ts a rest}, r ts = .matched a rest → Reads a.symbols ts rest ∧ a.IsRead

/-- An atom that is not a set. -/
theorem Atom.isRead_of_forall_bodies (hgrammatical : a.IsGrammatical)
    (hbodies : ∀ b ∈ a.bodies, Everywhere Expr.IsRead b) (hset : ∀ x, a ≠ .set x) : a.IsRead :=
  ⟨hgrammatical, fun x h => absurd h (hset x), hbodies⟩

/-- An atom without an expression in it that is not a set. -/
theorem Atom.isRead_of_bodies_eq_nil (hgrammatical : a.IsGrammatical) (hbodies : a.bodies = [])
    (hset : ∀ x, a ≠ .set x) : a.IsRead := by
  refine isRead_of_forall_bodies hgrammatical (fun b hb => ?_) hset
  rw [hbodies] at hb
  exact nomatch hb

/-! ### Atoms without an expression in them -/

theorem rangeAtom_isRead : rangeAtom.ReadsAtoms := by
  intro ts a rest h
  simp only [rangeAtom, matched_bind, matched_pure] at h
  obtain ⟨_, _, hword, _, _, hopen, min, _, hmin, _, _, hcomma, max, ts₅, hmax, z, ts₆, hz, _, _, hclose, rfl, rfl⟩ := h
  refine ⟨?_, Atom.isRead_of_bodies_eq_nil trivial rfl nofun⟩
  have hzeros : Reads (zerosSymbols z) ts₅ ts₆ := by
    rcases matched_option.1 hz with ⟨w, rfl, hw⟩ | ⟨rfl, rfl, -⟩
    · simp only [zeros, matched_bind] at hw
      obtain ⟨_, _, hcomma, hw⟩ := hw
      exact (word_takes _ hcomma).append (oneWord_takes hw)
    · exact .nil _
  exact (((((word_takes _ hword).append (word_takes _ hopen)).append (number_takes hmin)).append
    ((word_takes _ hcomma).append (number_takes hmax))).append hzeros).append (word_takes _ hclose)

theorem leafAtom_isRead : leafAtom.ReadsAtoms := by
  intro ts a rest h
  simp only [leafAtom, matched_bind, matched_pure] at h
  obtain ⟨w, _, hw, _, _, hopen, arg, _, harg, _, _, hclose, rfl, rfl⟩ := h
  refine ⟨?_, Atom.isRead_of_bodies_eq_nil trivial rfl nofun⟩
  exact ((oneWord_takes hw).append (word_takes _ hopen)).append (string_takes harg)
    |>.append (word_takes _ hclose)

/-- A group reference is read once the value of its integer is known, and its number or its name is set. -/
theorem groupRef_takes {raw : RawGroupRef} {x : GroupRef} (h : firstOf [groupNumber, groupName] ts = .matched raw mid)
    (hvalue : raw.value mid' = .matched x rest) : Reads x.symbols ts mid ∧ x.IsFilled ∧ mid' = rest := by
  obtain ⟨r, hr, h⟩ := (matched_firstOf.1 h).exists_mem
  simp only [mem_cons, not_mem_nil, or_false] at hr
  simp only [RawGroupRef.value, matched_bind, matched_pure, matched_integer?] at hvalue
  rcases hr with rfl | rfl
  · simp only [groupNumber, matched_bind, matched_pure, matched_ofKind] at h
    obtain ⟨t, _, ⟨rfl, hkind⟩, rfl, rfl⟩ := h
    obtain ⟨_, _, ⟨⟨hn⟩, rfl⟩, rfl, rfl⟩ := hvalue
    exact ⟨.singleton ⟨hkind, hn⟩, .numbered _, rfl⟩
  · simp only [groupName, matched_bind, matched_pure] at h
    obtain ⟨name, _, hname, rfl, rfl⟩ := h
    obtain ⟨_, _, ⟨⟨⟩, rfl⟩, rfl, rfl⟩ := hvalue
    exact ⟨ident_takes hname, .named name, rfl⟩

theorem backrefAtom_isRead : backrefAtom.ReadsAtoms := by
  intro ts a rest h
  simp only [backrefAtom, matched_bind, matched_pure] at h
  obtain ⟨_, _, hword, _, _, hopen, raw, _, hraw, _, _, hclose, x, _, hx, rfl, rfl⟩ := h
  obtain ⟨hgroup, hfilled, rfl⟩ := groupRef_takes hraw hx
  refine ⟨?_, Atom.isRead_of_bodies_eq_nil hfilled rfl nofun⟩
  rw [Atom.symbols]
  exact ((word_takes _ hword).append (word_takes _ hopen)).append hgroup |>.append (word_takes _ hclose)

/-- An atom with one part, which is not an expression, a set or a reference to a group. -/
theorem isRead_of_takes {β : Type} {r : Rule β} {f : β → Atom} {ss : β → List Symbol}
    (h : (do let b ← r; return f b : Rule Atom) ts = .matched a rest) (hr : r.Takes ss)
    (hf : ∀ b, (f b).symbols = ss b ∧ (f b).IsGrammatical ∧ (f b).bodies = [] ∧ ∀ x, f b ≠ .set x) :
    Reads a.symbols ts rest ∧ a.IsRead := by
  simp only [matched_bind, matched_pure] at h
  obtain ⟨b, _, hb, rfl, rfl⟩ := h
  obtain ⟨hsymbols, hgrammatical, hbodies, hset⟩ := hf b
  exact ⟨hsymbols ▸ hr hb, Atom.isRead_of_bodies_eq_nil hgrammatical hbodies hset⟩

theorem setAtom_isRead : setAtom.ReadsAtoms := by
  intro ts a rest h
  simp only [setAtom, matched_bind, matched_pure] at h
  obtain ⟨s, _, hs, rfl, rfl⟩ := h
  obtain ⟨hreading, hunmistakable, hgrammatical⟩ := setExpr_read hs
  refine ⟨hreading, hgrammatical, ?_, nofun⟩
  rintro x ⟨⟩
  exact hunmistakable

/-! ### Expressions -/

/-- The names of a group are read; those that are left out are empty. -/
theorem groupLabel_takes : groupLabel.Takes GroupLabel.symbols := by
  intro ts l rest h
  simp only [groupLabel, matched_bind, matched_pure] at h
  obtain ⟨_, ts₁, hopen, name, ts₂, hname, other, ts₃, hother, _, _, hclose, rfl, rfl⟩ := h
  have hname' : Reads (if name.getD [] = [] then [] else [.ident (name.getD [])]) ts₁ ts₂ := by
    rcases matched_option.1 hname with ⟨x, rfl, hx⟩ | ⟨rfl, rfl, -⟩
    · obtain ⟨t, rfl, hkind, rfl⟩ := matched_ident.1 hx
      intro hts
      rw [getD_some, if_neg (hts t mem_cons_self hkind)]
      exact .singleton ⟨hkind, rfl⟩
    · exact .nil ts₁
  have hother' : Reads (if other.getD [] = [] then [] else [.word "-", .ident (other.getD [])])
      ts₂ ts₃ := by
    rcases matched_option.1 hother with ⟨x, rfl, hx⟩ | ⟨rfl, rfl, -⟩
    · simp only [otherName, matched_bind, matched_word, matched_ident] at hx
      obtain ⟨t, _, ⟨rfl, ht⟩, u, rfl, hkind, rfl⟩ := hx
      intro hts
      rw [getD_some, if_neg (hts u (mem_cons_of_mem t mem_cons_self) hkind)]
      exact .cons ht (.singleton ⟨hkind, rfl⟩)
    · exact .nil ts₂
  exact ((word_takes _ hopen).append hname').append hother' |>.append (word_takes _ hclose)

section

variable {sequence : Rule Sequence}
  (hsequence : ∀ {ts s rest}, sequence ts = .matched s rest →
    Reads (sequenceSymbols s) ts rest ∧ Sequence.IsRead s)

include hsequence

variable {more : List Sequence} {ts rest : List Token} {a : Atom}

theorem branches_read (h : (branch sequence).Runs more ts rest) :
    Reads (branchSymbols more) ts rest ∧ ∀ s ∈ more, Sequence.IsRead s := by
  induction more generalizing ts with
  | nil =>
    obtain rfl : ts = rest := h
    exact ⟨.nil ts, nofun⟩
  | cons s more ih =>
    obtain ⟨mid, hs, hruns⟩ := h
    simp only [branch, matched_bind] at hs
    obtain ⟨_, _, hbar, hs⟩ := hs
    obtain ⟨hreading, hread⟩ := hsequence hs
    obtain ⟨hmore, hreads⟩ := ih hruns
    rw [branchSymbols]
    exact ⟨(word_takes _ hbar).append (hreading.append hmore), forall_mem_cons.2 ⟨hread, hreads⟩⟩

/-- A sequence and the branches behind it. -/
theorem branches_isRead {first : Sequence} {mid : List Token} (hfirst : sequence ts = .matched first mid)
    (hmore : many (branch sequence) mid = .matched more rest) :
    Reads (exprSymbols (first :: more)) ts rest ∧ Everywhere Expr.IsRead (first :: more) := by
  obtain ⟨hreading, hread⟩ := hsequence hfirst
  obtain ⟨hbranches, hreads⟩ := branches_read hsequence (runs_of_matched_many hmore)
  rw [exprSymbols]
  refine ⟨hreading.append hbranches, everywhere_isRead_iff.2 ⟨cons_ne_nil _ _, ?_⟩⟩
  exact forall_mem_cons.2 ⟨hread, hreads⟩

theorem expression_isRead {e : Expr} (h : expression sequence ts = .matched e rest) :
    Reads (exprSymbols e) ts rest ∧ Everywhere Expr.IsRead e := by
  simp only [expression, matched_bind, matched_pure] at h
  obtain ⟨first, _, hfirst, more, _, hmore, rfl, rfl⟩ := h
  exact branches_isRead hsequence hfirst hmore

theorem parensAtom_isRead : (parensAtom sequence).ReadsAtoms := by
  intro ts a rest h
  simp only [parensAtom, matched_bind, matched_pure] at h
  obtain ⟨_, _, hopen, body, _, hbody, _, _, hclose, rfl, rfl⟩ := h
  obtain ⟨hreading, hread⟩ := expression_isRead hsequence hbody
  rw [Atom.symbols]
  exact ⟨((word_takes _ hopen).append hreading).append (word_takes _ hclose),
    Atom.isRead_of_forall_bodies trivial (forall_mem_singleton.2 hread) nofun⟩

theorem groupAtom_isRead : (groupAtom sequence).ReadsAtoms := by
  intro ts a rest h
  simp only [groupAtom, matched_bind, matched_pure] at h
  obtain ⟨w, _, hw, label, _, hlabel, _, _, hopen, body, _, hbody, _, _, hclose, rfl, rfl⟩ := h
  obtain ⟨hreading, hread⟩ := expression_isRead hsequence hbody
  rw [Atom.symbols]
  exact ⟨((oneWord_takes hw).append (option_takes groupLabel_takes hlabel)).append
      ((word_takes _ hopen).append hreading) |>.append (word_takes _ hclose),
    Atom.isRead_of_forall_bodies trivial (forall_mem_singleton.2 hread) nofun⟩

theorem condAtom_isRead : (condAtom sequence).ReadsAtoms := by
  intro ts a rest h
  simp only [condAtom, matched_bind, matched_pure] at h
  obtain ⟨_, _, hword, _, _, hopen, raw, _, hraw, _, _, hcomma, first, _, hfirst, test, _, htest, more, _,
    hmore, no, _, hno, _, _, hclose, rfl, rfl⟩ := h
  obtain ⟨hgroup, hfilled, rfl⟩ := groupRef_takes hraw htest
  obtain ⟨hreading, hread⟩ := branches_isRead hsequence hfirst hmore
  have hhead := (((word_takes _ hword).append (word_takes _ hopen)).append hgroup).append
    ((word_takes _ hcomma).append hreading)
  rcases matched_option.1 hno with ⟨e, rfl, he⟩ | ⟨rfl, rfl, -⟩
  · simp only [otherwise, matched_bind] at he
    obtain ⟨_, _, hcomma', he⟩ := he
    obtain ⟨hreading', hread'⟩ := expression_isRead hsequence he
    rw [Atom.symbols]
    refine ⟨(hhead.append ((word_takes _ hcomma').append hreading')).append (word_takes _ hclose), ?_⟩
    refine Atom.isRead_of_forall_bodies hfilled ?_ nofun
    exact forall_mem_cons.2 ⟨hread, forall_mem_singleton.2 hread'⟩
  · rw [Atom.symbols]
    exact ⟨hhead.append (word_takes _ hclose),
      Atom.isRead_of_forall_bodies hfilled (forall_mem_singleton.2 hread) nofun⟩

theorem modifyAtom_isRead : (modifyAtom sequence).ReadsAtoms := by
  intro ts a rest h
  simp only [modifyAtom, matched_bind, matched_pure] at h
  obtain ⟨_, _, hword, _, _, hopen, flags, _, hflags, _, _, hcomma, body, _, hbody, _, _, hclose, rfl, rfl⟩ := h
  obtain ⟨hreading, hread⟩ := expression_isRead hsequence hbody
  rw [Atom.symbols]
  exact ⟨(((word_takes _ hword).append (word_takes _ hopen)).append (string_takes hflags)).append
      (word_takes _ hcomma) |>.append hreading |>.append (word_takes _ hclose),
    Atom.isRead_of_forall_bodies trivial (forall_mem_singleton.2 hread) nofun⟩

/-- **An atom is read from its symbols.** -/
theorem atom_isRead : (atom sequence).ReadsAtoms := by
  intro ts a rest h
  obtain ⟨r, hr, h⟩ := (matched_firstOf.1 h).exists_mem
  simp only [mem_cons, not_mem_nil, or_false] at hr
  rcases hr with rfl | rfl | rfl | rfl | rfl | rfl | rfl | rfl | rfl | rfl | rfl | rfl
  · exact isRead_of_takes h string_takes fun _ => ⟨rfl, trivial, rfl, nofun⟩
  · exact parensAtom_isRead hsequence h
  · exact setAtom_isRead h
  · exact rangeAtom_isRead h
  · exact groupAtom_isRead hsequence h
  · exact leafAtom_isRead h
  · exact backrefAtom_isRead h
  · exact condAtom_isRead hsequence h
  · exact modifyAtom_isRead hsequence h
  · exact isRead_of_takes h oneWord_takes fun _ => ⟨rfl, trivial, rfl, nofun⟩
  · exact isRead_of_takes h oneWord_takes fun _ => ⟨rfl, trivial, rfl, nofun⟩
  · exact isRead_of_takes h ident_takes fun _ => ⟨rfl, trivial, rfl, nofun⟩

omit hsequence in
/-- Literals are read from strings. -/
theorem string_of_matched_atom {v : Text} (h : atom sequence ts = .matched (.literal v) rest) :
    string ts = .matched v rest := by
  obtain ⟨r, hr, h⟩ := (matched_firstOf.1 h).exists_mem
  simp only [mem_cons, not_mem_nil, or_false] at hr
  rcases hr with rfl | rfl | rfl | rfl | rfl | rfl | rfl | rfl | rfl | rfl | rfl | rfl
  · simp only [literalAtom, matched_bind, matched_pure] at h
    obtain ⟨_, _, hv, ⟨⟩, rfl⟩ := h
    exact hv
  all_goals simp [parensAtom, setAtom, rangeAtom, groupAtom, leafAtom, backrefAtom, condAtom, modifyAtom,
    classAtom, anchorAtom, refAtom, matched_bind, matched_pure] at h

/-! ### Terms -/

/-- What the term `t`, read from `ts` up to `rest`, has to do with the tokens. -/
structure Term.IsRead (t : Term) (ts rest : List Token) : Prop where
  reading : Reads t.symbols ts rest
  atom : t.atom.IsRead
  count : ∀ q ∈ t.quantifier, q.count.IsFilled
  literal : ∀ v, t.atom = .literal v → ∃ u us, ts = u :: us ∧ u.kind = .string ∧ u.value = v
  apart : ∀ u us, rest = u :: us → u.kind = .string → ¬ t.Swallows u.value

/-- A term is read, and no string behind it is its quantifier. -/
theorem term_isRead {t : Term} (h : term sequence ts = .matched t rest) : t.IsRead ts rest := by
  obtain ⟨pos, h⟩ := exists_of_matched_placed h
  simp only [matched_bind, matched_pure] at h
  obtain ⟨a, mid, ha, q, _, hq, rfl, rfl⟩ := h
  obtain ⟨hreading, hread⟩ := atom_isRead hsequence ha
  have hliteral : ∀ v, a = .literal v → ∃ u us, ts = u :: us ∧ u.kind = .string ∧ u.value = v := by
    rintro v rfl
    obtain ⟨u, rfl, hu⟩ := matched_string.1 (string_of_matched_atom ha)
    exact ⟨u, mid, rfl, hu⟩
  rcases matched_option.1 hq with ⟨q, rfl, hsome⟩ | ⟨rfl, rfl, hstops⟩
  · obtain ⟨hquantifier, hfilled, hlazy⟩ := quantifier_takes hsome
    refine ⟨?_, hread, ?_, hliteral, ?_⟩
    · rw [Term.symbols]
      exact hreading.append hquantifier
    · rintro _ ⟨⟩
      exact hfilled
    · rintro u us rfl hkind ⟨hnot, hvalue⟩
      exact not_stops_word (by simp [hkind]) hvalue (hlazy hnot)
  · refine ⟨?_, hread, nofun, hliteral, ?_⟩
    · rw [Term.symbols]
      exact hreading.append (.nil _)
    · rintro u us rfl hkind hmark
      exact not_stops_quantifier (by simp [hkind]) hmark hstops

/-- Terms are read one after another. -/
theorem terms_read {terms : List Term} (h : (term sequence).Runs terms ts rest) :
    Reads (sequenceSymbols terms) ts rest ∧
      (terms.IsChain fun t next => ∀ v, next.atom = .literal v → ¬ t.Swallows v) ∧
      (∀ t ∈ terms, t.atom.IsRead) ∧ ∀ t ∈ terms, ∀ q ∈ t.quantifier, q.count.IsFilled := by
  induction terms generalizing ts with
  | nil =>
    obtain rfl : ts = rest := h
    exact ⟨.nil ts, .nil, nofun, nofun⟩
  | cons t terms ih =>
    obtain ⟨mid, ht, hruns⟩ := h
    have hread := term_isRead hsequence ht
    obtain ⟨hreading, hchain, hatoms, hcounts⟩ := ih hruns
    refine ⟨?_, ?_, forall_mem_cons.2 ⟨hread.atom, hatoms⟩, forall_mem_cons.2 ⟨hread.count, hcounts⟩⟩
    · rw [sequenceSymbols]
      exact hread.reading.append hreading
    · cases terms with
      | nil => exact .singleton t
      | cons =>
        refine .cons_cons (fun v hv => ?_) hchain
        obtain ⟨ts₂, hnext, -⟩ := hruns
        obtain ⟨u, us, rfl, hkind, rfl⟩ := (term_isRead hsequence hnext).literal v hv
        exact hread.apart u us rfl hkind

end

/-- **A sequence is read from its symbols.** -/
theorem sequenceTo_isRead (depth : Nat) {s : Sequence} (h : sequenceTo depth ts = .matched s rest) :
    Reads (sequenceSymbols s) ts rest ∧ Sequence.IsRead s := by
  induction depth generalizing ts s rest with
  | zero => cases h
  | succ depth ih =>
    obtain ⟨hne, hruns⟩ := runs_of_matched_many1 h
    obtain ⟨hreading, hchain, hatoms, hcounts⟩ := terms_read ih hruns
    exact ⟨hreading, hne, hchain, hatoms, hcounts⟩

/-! ### Files -/

theorem definition_isRead {d : Definition} (h : definition depth ts = .matched d rest) :
    Reads d.symbols ts rest ∧ Everywhere Expr.IsRead d.expr := by
  obtain ⟨pos, h⟩ := exists_of_matched_placed h
  simp only [matched_bind, matched_pure] at h
  obtain ⟨_, _, hword, name, _, hname, _, _, hequals, e, _, he, _, _, hend, rfl, rfl⟩ := h
  obtain ⟨hreading, hread⟩ := expression_isRead (sequenceTo_isRead depth) he
  exact ⟨(((word_takes _ hword).append (ident_takes hname)).append (word_takes _ hequals)).append
    hreading |>.append (word_takes _ hend), hread⟩

/-- The definitions take all tokens up to the end. -/
theorem definitionsTo_isRead {bound : Nat} (hts : ∀ t ∈ ts, t.kind = .ident → t.value ≠ []) (hbound : ts.length ≤ bound)
    (h : definitionsTo depth bound ts = .ok ds) :
    (∃ rest, Reading IsKind (symbols ds) ts rest ∧ ∀ t us, rest = t :: us → t.kind = .eof) ∧
      ∀ d ∈ ds, Everywhere Expr.IsRead d.expr := by
  induction bound generalizing ts ds with
  | zero =>
    obtain rfl := eq_nil_of_length_eq_zero (Nat.le_zero.1 hbound)
    cases h
    exact ⟨⟨[], .nil [], nofun⟩, nofun⟩
  | succ bound ih =>
    unfold definitionsTo at h
    split at h
    · next d rest hd =>
      obtain ⟨more, hmore, h⟩ := bind_eq_ok.1 h
      cases h
      obtain ⟨hreads, hread⟩ := definition_isRead hd
      have hreading := hreads hts
      have hlength : ts.length = d.symbols.length + rest.length := hreading.length_eq
      have hsymbols : 0 < d.symbols.length := by simp [Definition.symbols]
      obtain ⟨taken, rfl, -⟩ := id hreading
      obtain ⟨⟨last, hlast, heof⟩, hreads⟩ := ih (fun t ht => hts t (mem_append_right taken ht)) (by omega) hmore
      exact ⟨⟨last, hreading.append hlast, heof⟩, forall_mem_cons.2 ⟨hread, hreads⟩⟩
    · cases h
    · split at h
      · cases h
        exact ⟨⟨[], .nil [], nofun⟩, nofun⟩
      · next t us _ =>
        split at h
        · next hkind =>
          cases h
          refine ⟨⟨t :: us, .nil _, ?_⟩, nofun⟩
          rintro _ _ ⟨⟩
          exact hkind
        · cases h

/-- The end writes no symbol. -/
theorem Token.Writes.kind_ne_eof {s : Symbol} (h : t.Writes IsKind s) : t.kind ≠ .eof := by
  cases s with
  | word => exact h.1
  | string | int | ident =>
    rw [h.1]
    nofun

/-- **The tokens of a description are those of its definitions,** in their order, and no string of a
definition is mistaken for a word. -/
theorem parse_reads {file src : Text} (h : parse file src = .ok ds) :
    ∃ ts e, tokens file src = .ok (ts ++ [e]) ∧ e.kind = .eof ∧
      Forall₂ (Token.Writes IsKind) ts (symbols ds) ∧ (∀ t ∈ ts, t.IsLexed) ∧
      ∀ d ∈ ds, Everywhere Expr.IsRead d.expr := by
  obtain ⟨_, hts, h⟩ := bind_eq_ok.1 h
  obtain ⟨us, e, rfl, he, hus⟩ := isLexed_of_tokensFrom hts
  refine ⟨us, e, hts, he, ?_⟩
  have hident : ∀ t ∈ us ++ [e], t.kind = .ident → t.value ≠ [] := by
    intro t ht hkind
    rcases mem_append.1 ht with ht | ht
    · have hlexed : t.kind.Holds t.value := hus t ht
      rw [hkind] at hlexed
      rintro hnil
      rw [hnil] at hlexed
      cases hlexed
    · cases mem_singleton.1 ht
      cases he.symm.trans hkind
  obtain ⟨⟨rest, hreading, hrest⟩, hread⟩ := definitionsTo_isRead hident (Nat.le_refl _) h
  refine ⟨?_, hus, hread⟩
  obtain ⟨taken, heq, hwrites⟩ := hreading
  have htaken : ∀ t ∈ taken, t.kind ≠ .eof := fun t ht =>
    have ⟨_, _, hwrite⟩ := exists_mem_of_forall₂ hwrites ht
    hwrite.kind_ne_eof
  -- The symbols end at the first token for the end, and that is the last token.
  suffices hall : us = taken by rwa [hall]
  rcases append_eq_append_iff.1 heq with ⟨mid, rfl, hlast⟩ | ⟨mid, rfl, rfl⟩
  · cases mid with
    | nil => exact (List.append_nil us).symm
    | cons =>
      obtain rfl := (List.cons.inj hlast).1
      exact absurd he (htaken e (mem_append_right us mem_cons_self))
  · cases mid with
    | nil => exact List.append_nil taken
    | cons t mid =>
      have hlexed : t.kind.Holds t.value := hus t (mem_append_right taken mem_cons_self)
      rw [hrest t _ rfl] at hlexed
      exact hlexed.elim

end RegexBuilder.Description
