/-
# Texts that are read as pieces

A text *writes* branches if it is spelled by lexemes that are read as these branches. Then it is read completely, and
as nothing else (`Writes.readPattern?_eq`, `Writes.readNested?_eq`). Where the plain groups are counted (`D`), it is
kept how many of them are there for something else than to keep an escape apart from a digit: `Session.separate` puts
an escape of one digit before a digit into one (`Writes.separate`).
-/

import RegexBuilder.Proofs.NestedCondition

namespace RegexBuilder

open List

/-! ### Putting texts together -/

/-- The text is spelled by lexemes that are read as the branches, wherever they stand. If plain groups are counted,
which `D` says, the lexemes are thrifty with `k` groups. -/
def Writes (nested : Bool) (D : Prop) (k : Nat) (bs : List (List Item)) (t : Text) : Prop :=
  ∃ ls, spell ls = t ∧ IsSpelling nested ls ∧ ReadsBranches bs (readLevels nested ls) ∧ (D → IsThrifty k ls)

variable {nested : Bool} {D : Prop} {k k' : Nat} {bs cs : List (List Item)} {t u w : Text} {d : Glyph}
  {ks ls : List Lexeme} {xs ys : List Item}

/-- **What writes branches is read as these branches.** -/
theorem Writes.readPattern?_eq (h : Writes false D k bs t) : readPattern? t = some bs := by
  obtain ⟨ls, rfl, hspelling, hreads, -⟩ := h
  unfold readPattern?
  rw [hspelling.lexemes?_eq, Option.bind_some]
  exact hreads.branches?_eq

example : readPattern? "(?:ab|\\12)c*?" =
    some [[.group "(?:" [[.atom (.char 'a'), .atom (.char 'b')], [.atom (.escape "12")]],
      .repeated (.atom (.char 'c')) ⟨0, unbounded, false⟩]] := rfl

theorem Writes.readNested?_eq (h : Writes true D k bs t) : readNested? t = some bs := by
  obtain ⟨ls, rfl, hspelling, hreads, -⟩ := h
  have hcut : cutAfter nestedLexeme? 0 (spell ls) = some ls := hspelling.cutAfter_eq
  rw [readNested?, hcut, Option.bind_some]
  exact hreads.branches?_eq

example : readNested? "(?(a(?:b|c))d|e)*" =
    some [[.repeated (.group "(?" [[.group "(" [[.atom (.char 'a'),
      .group "(?:" [[.atom (.char 'b')], [.atom (.char 'c')]]]], .atom (.char 'd')],
        [.atom (.char 'e')]]) ⟨0, unbounded, true⟩]] := rfl

namespace Writes

theorem nil : Writes nested D 0 [[]] [] := by
  cases nested with
  | false | true => exact ⟨[], rfl, .nil, .last .nil, fun _ => .nil⟩

theorem atoms {as : List Atom} (h : IsSpelling nested (as.map .atom)) :
    Writes nested D 0 [as.map .atom] (spell (as.map .atom)) := by
  have hlevels : readLevels nested (as.map .atom) = as.map .atom := by
    cases nested with
    | false => rfl
    | true =>
      rw [readLevels, flatMap_map]
      exact map_eq_flatMap.symm
  refine ⟨as.map .atom, rfl, h, ?_, fun _ => .of_not_mem fun hmem => ?_⟩
  · rw [hlevels]
    exact .last (.atoms as)
  · obtain ⟨a, -, ha⟩ := mem_map.1 hmem
    cases ha

theorem atom {a : Atom} (h : (Lexeme.atom a).IsLegible) : Writes nested D 0 [[.atom a]] a.form := by
  have hspell : spell ([a].map .atom) = a.form := List.append_nil _
  exact hspell ▸ atoms (.singleton (h.isFit nofun))

theorem mono (h : Writes nested D k [xs] t) (hk : D → k ≤ k') : Writes nested D k' [xs] t := by
  obtain ⟨ls, ht, hspelling, hreads, hthrifty⟩ := h
  exact ⟨ls, ht, hspelling, hreads, fun hD => (hthrifty hD).mono (hk hD)⟩

/-- **A suffix behind a piece that has none.** -/
theorem repeated {x : Item} (h : Writes nested D k [[x]] t) (hx : x.isRepeated = false) {b : Bounds}
    (hb : (Lexeme.times b).IsLegible) : Writes nested D k [[.repeated x b]] (t ++ b.suffix) := by
  obtain ⟨ls, rfl, hspelling, hreads, hthrifty⟩ := h
  have htimes : IsThrifty 0 [.times b] := .of_ne nofun
  refine ⟨ls ++ [Lexeme.times b], ?_, ?_, ?_, fun hD => (hthrifty hD).append htimes⟩
  · rw [spell_append]
    exact congrArg (spell ls ++ ·) (List.append_nil _)
  · refine hspelling.append (.singleton (hb.isFit nofun)) fun l hl m hm => ?_
    cases hm
    exact ⟨fun _ _ hc => (nomatch hc), fun _ => hreads.pieces.takesSuffix_readLevels hx hl⟩
  · rw [readLevels_append, readLevels_singleton nested rfl]
    exact .last (hreads.pieces.repeated hx b)

section

variable (h : Writes nested D k bs t)

include h

theorem length_pos : 0 < bs.length := by
  obtain ⟨ls, -, -, hreads, -⟩ := h
  exact hreads.length_pos

/-- **Branches with a bar between them.** -/
theorem bar (h' : Writes nested D k' cs u) : Writes nested D (k + k') (bs ++ cs) (t ++ "|" ++ u) := by
  obtain ⟨ls, rfl, hspelling, hreads, hthrifty⟩ := h
  obtain ⟨ms, rfl, hspelling', hreads', hthrifty'⟩ := h'
  refine ⟨ls ++ Lexeme.bar :: ms, ?_, ?_, ?_, fun hD => ?_⟩
  · rw [spell_append, append_assoc]
    rfl
  · have hbar : IsSpelling nested (.bar :: ms) := by
      have hfit : Lexeme.bar.IsFit nested := isLegible_bar.isFit nofun
      refine (IsSpelling.singleton hfit).append hspelling' fun l hl m hm => ?_
      cases hl
      exact .of_ne_times nofun (hreads'.ne_times_readLevels hm)
    refine hspelling.append hbar fun l _ m hm => ?_
    cases hm
    exact .of_next nofun nofun
  · rw [readLevels_append, readLevels_cons nested rfl]
    exact hreads.append hreads'
  · have hbar : IsThrifty 0 [.bar] := .of_ne nofun
    exact ((hthrifty hD).append (hbar.append (hthrifty' hD))).mono (by omega)

/-- Parentheses around branches, which are opened by one lexeme and read as one piece. -/
theorem enclosed {l : Lexeme} (hl : l.IsLegible)
    (htest : nested = true → ∀ t, l ≠ .test t) (hne : ∀ d, l ≠ .atom (.escape [d])) (head : Head)
    (hhead : ∀ s : Reader, s.step l = some (s.enter head)) :
    Writes nested D (k + if l = .opening "(?:" then 1 else 0) [[head.item bs]] (l.form ++ t ++ ")") := by
  obtain ⟨ls, rfl, hspelling, hreads, hthrifty⟩ := h
  refine ⟨l :: (ls ++ [Lexeme.close]), ?_, hspelling.enclosed hreads (hl.isFit htest) hne, ?_,
    fun hD => (hthrifty hD).enclosed l⟩
  · rw [append_assoc]
    exact congrArg (l.form ++ ·) (spell_append ls [.close])
  · rw [readLevels_cons nested hl.levels_eq, readLevels_append, readLevels_singleton nested rfl]
    exact .last (hreads.enclosed hhead)

/-- **A group around branches.** -/
theorem group {opening : Text} (ho : (Lexeme.opening opening).IsLegible) :
    Writes nested D (k + if opening = "(?:" then 1 else 0) [[.group opening bs]] (opening ++ t ++ ")") := by
  have hgroup := h.enclosed ho nofun nofun (.group opening) fun _ => rfl
  simp only [Lexeme.opening.injEq] at hgroup
  exact hgroup

end

/-- **A conditional around branches,** whose condition is about a group. -/
theorem conditional (h : Writes false D k bs t) {test : Text} (htest : (Lexeme.test test).IsLegible) :
    Writes false D k [[.conditional test bs]] ("(?(" ++ test ++ ")" ++ t ++ ")") :=
  h.enclosed htest nofun nofun (.conditional test) fun _ => rfl

theorem prepend {ys : List Item} {ls ms : List Lexeme} (h : ReadsBranches (ys :: bs) ms) (h' : ReadsPieces xs ls) :
    ReadsBranches ((xs ++ ys) :: bs) (ls ++ ms) := by
  cases h with
  | last h => exact .last (h'.append h)
  | cons h hbs =>
    rw [← append_assoc]
    exact .cons (h'.append h) hbs

/-- **A conditional is a group around its condition, which is a group, and its branches.** -/
theorem nestedConditional (h : Writes true D k cs u) (h' : Writes true D k' (xs :: bs) t) (hD : ¬ D) (k : Nat) :
    Writes true D k [[.group "(?" ((.group "(" cs :: xs) :: bs)]] ("(?(" ++ u ++ ")" ++ t ++ ")") := by
  obtain ⟨ls, rfl, hspelling, hreads, -⟩ := h
  obtain ⟨ms, rfl, hspelling', hreads', -⟩ := h'
  refine ⟨.opening "(?(" :: (ls ++ [Lexeme.close]) ++ (ms ++ [Lexeme.close]), ?_, ?_, ?_, fun h => absurd h hD⟩
  · rw [spell_append, spell_append]
    show "(?(" ++ spell (ls ++ [Lexeme.close]) ++ (spell ms ++ ")") = _
    rw [spell_append, append_assoc, append_assoc, append_assoc, append_assoc, append_assoc]
    rfl
  · refine (hspelling.enclosed hreads Lexeme.isFit_conditional nofun).append hspelling'.close ?_
    intro l hl m _
    rw [← cons_append, getLast?_concat] at hl
    cases hl
    exact .of_takesSuffix nofun rfl
  · have hcondition : ReadsPieces [.group "(" cs] (.opening "(" :: (readLevels true ls ++ [Lexeme.close])) :=
      hreads.enclosed (k := .group "(") fun s => rfl
    have hall := (prepend hreads' hcondition).enclosed (k := .group "(?") (l := .opening "(?") fun s => rfl
    have hlevels : readLevels true (Lexeme.opening "(?(" :: (ls ++ [Lexeme.close]) ++ (ms ++ [Lexeme.close])) =
        .opening "(?" :: ((.opening "(" :: (readLevels true ls ++ [Lexeme.close])) ++ readLevels true ms ++
          [Lexeme.close]) := by
      simp [readLevels, Lexeme.levels]
    rw [hlevels]
    exact .last hall

end Writes

/-! ### Keeping an escape apart from a digit -/

/-- The text ends in an escape of one digit, and the next text begins with a digit. -/
structure RunsInto (t u w : Text) (d : Glyph) : Prop where
  ending : t = w ++ [Glyph.char '\\', d]
  complete : w.IsComplete
  digit : d.isDigit = true
  next : ∃ e, u.head? = some e ∧ e.isDigit = true

theorem RunsInto.separate_eq (h : RunsInto t u w d) :
    Session.separate t.length (t ++ u) = w ++ "(?:\\" ++ [d] ++ ")" ++ u := by
  obtain ⟨rfl, hw, hd, e, he, hdigit⟩ := h
  obtain ⟨u, rfl⟩ := List.head?_eq_some_iff.1 he
  simpa using Session.separate_eq (l := u) hw hd hdigit

/-- Lexemes of which the last is an escape of one digit are run into by a digit. -/
theorem runsInto_spell {ns : List Lexeme} (hks : (spell ks).IsComplete) {c : Char} (hd : d.isDigit = true)
    (hc : c.isDigit = true) :
    RunsInto (spell (ks ++ [Lexeme.atom (.escape [d])])) (spell (.atom (.char c) :: ns)) (spell ks) d := by
  refine ⟨by rw [spell_append]; rfl, hks, hd, .char c, ?_, hc⟩
  show (escapeChar literalMeta c ++ spell ns).head? = _
  rw [escapeChar, if_neg (not_mem_literalMeta_of_isDigit hc)]
  rfl

/-- With a plain group around the escape, lexemes spell what keeps it apart from the digit. -/
theorem RunsInto.spell_eq (h : RunsInto t u w d) {ms : List Lexeme} (hks : spell ks = w) (hms : spell ms = u) :
    spell (ks ++ (Lexeme.opening "(?:" :: ([Lexeme.atom (.escape [d])] ++ [Lexeme.close]) ++ ms)) =
      Session.separate t.length (t ++ u) := by
  rw [h.separate_eq, spell_append, spell_append, hks, hms]
  simp [spell, Lexeme.form, Atom.form, Text.ofString]

theorem separate_eq_self (h : ∀ w d, ¬ RunsInto t u w d) : Session.separate t.length (t ++ u) = t ++ u := by
  rcases Session.separate_cases t.length (t ++ u) with hself | ⟨w, l, d, e, hw, hd, he, hlength, ht⟩
  · exact hself
  have hsplit : w ++ .char '\\' :: d :: e :: l = (w ++ [.char '\\', d]) ++ e :: l := by simp
  obtain ⟨rfl, rfl⟩ := append_inj (ht.trans hsplit) (by simpa using hlength)
  exact absurd ⟨rfl, hw, hd, e, rfl, he⟩ (h w d)

/-- Lexemes that spell an escape of one digit at the end have it as the last one. -/
theorem exists_of_spell_eq (h : ∀ l ∈ ls, l.IsWhole) (hls : spell ls = w ++ [Glyph.char '\\', d]) (hw : w.IsComplete)
    (hd : d.isDigit = true) : ∃ ms, ls = ms ++ [Lexeme.atom (.escape [d])] ∧ spell ms = w := by
  rcases eq_nil_or_concat ls with rfl | ⟨ms, l, rfl⟩
  · have := congrArg List.length hls
    simp [spell] at this
  rw [concat_eq_append] at h hls ⊢
  have hl := h l (mem_append_right _ (mem_singleton.2 rfl))
  have hspell : spell ms ++ l.form = w ++ [Glyph.char '\\', d] := by
    rw [← hls, spell_append]
    exact congrArg (spell ms ++ ·) (List.append_nil _).symm
  rcases eq_nil_or_concat l.form with hnil | ⟨v, e, hform⟩
  · exact absurd hnil hl.ne_nil
  rw [concat_eq_append] at hform
  have hsplit : (spell ms ++ v) ++ [e] = (w ++ [Glyph.char '\\']) ++ [d] := by
    rw [append_assoc, append_assoc, ← hform]
    exact hspell
  obtain ⟨hv, hed⟩ := append_inj' hsplit rfl
  obtain rfl : e = d := singleton_inj.1 hed
  rcases eq_nil_or_concat v with rfl | ⟨v, e', rfl⟩
  · -- the backslash would be the last glyph of complete lexemes
    rw [List.append_nil] at hv
    have hms : (spell ms).IsComplete := Text.isComplete_flatMap fun l hl => (h l (mem_append_left _ hl)).complete
    rw [hv, Text.isComplete_append_iff hw] at hms
    cases hms
  · rw [concat_eq_append] at hv hform
    rw [← append_assoc] at hv
    obtain ⟨hv, he'⟩ := append_inj' hv rfl
    obtain rfl : e' = .char '\\' := singleton_inj.1 he'
    have hlast : l = .atom (.escape [e]) := hl.digit (u := v) (by rw [hform, append_assoc]; rfl) hd
    subst hlast
    refine ⟨ms, rfl, ?_⟩
    have hend : spell ms ++ [Glyph.char '\\', e] = w ++ [Glyph.char '\\', e] := hspell
    exact append_cancel_right hend

/-- Lexemes that spell a digit at the beginning have it as the first one. -/
theorem IsSpelling.exists_char_of_head? (h : IsSpelling nested ls) {e : Glyph} (he : (spell ls).head? = some e)
    (hdigit : e.isDigit = true) : ∃ c : Char, c.isDigit = true ∧ ∃ ms, ls = .atom (.char c) :: ms := by
  cases ls with
  | nil => cases he
  | cons l ms =>
    have hl := (h.fit l mem_cons_self).isWhole
    obtain ⟨g, t, hform⟩ := exists_cons_of_ne_nil hl.ne_nil
    have hhead : (l.form ++ spell ms).head? = some e := he
    rw [hform] at hhead
    cases hhead
    cases e with
    | stray => cases hdigit
    | char c =>
      obtain rfl := hl.first hform hdigit
      exact ⟨c, hdigit, ms, rfl⟩

/-- Where nothing runs into the other text, pieces are put in sequence as they are. -/
theorem Writes.append (h : Writes nested D k [xs] t) (h' : Writes nested D k' [ys] u)
    (hruns : ∀ w d, ¬ RunsInto t u w d) : Writes nested D (k + k') [xs ++ ys] (t ++ u) := by
  obtain ⟨ls, hls, hspelling, hreads, hthrifty⟩ := h
  obtain ⟨ms, hms, hspelling', hreads', hthrifty'⟩ := h'
  refine ⟨ls ++ ms, by rw [spell_append, hls, hms], ?_, ?_, fun hD => (hthrifty hD).append (hthrifty' hD)⟩
  · refine hspelling.append hspelling' fun l hl m hm => ⟨fun {d c} hd hdigit hc => ?_, fun hb => ?_⟩
    · subst hd hc
      obtain ⟨ks, rfl⟩ := List.getLast?_eq_some_iff.1 hl
      obtain ⟨ns, rfl⟩ := List.head?_eq_some_iff.1 hm
      refine Bool.eq_false_iff.2 fun hcdigit => hruns (spell ks) d ?_
      exact hls ▸ hms ▸ runsInto_spell hspelling.of_append.isComplete hdigit hcdigit
    · exact absurd hb (hreads'.ne_times_readLevels hm _)
  · rw [readLevels_append]
    exact .last (hreads.pieces.append hreads'.pieces)

/-- **Pieces are put in sequence with a digit kept apart from an escape.** Only a plain group is added
for it. -/
theorem Writes.separate (h : Writes nested D k [xs] t) (h' : Writes nested D k' [ys] u) :
    ∃ zs, Writes nested D (k + k') [zs ++ ys] (Session.separate t.length (t ++ u)) ∧
      erasedParts zs = erasedParts xs ∧ zs.length = xs.length := by
  by_cases hruns : ∃ w d, RunsInto t u w d
  · obtain ⟨w, d, hruns⟩ := hruns
    obtain ⟨ls, hls, hspelling, hreads, hthrifty⟩ := h
    obtain ⟨ms, hms, hspelling', hreads', hthrifty'⟩ := h'
    obtain ⟨ks, rfl, hks⟩ := exists_of_spell_eq (fun l hl => (hspelling.fit l hl).isWhole)
      (hls.trans hruns.ending) hruns.complete hruns.digit
    rw [readLevels_append, readLevels_singleton nested rfl] at hreads
    obtain ⟨ws, rfl, hws⟩ := hreads.pieces.exists_of_append_atom
    -- the last lexeme is put between parentheses
    have hescape : IsSpelling nested [.atom (.escape [d])] :=
      .singleton (hspelling.fit _ (mem_append_right _ (mem_singleton.2 rfl)))
    have hbranch : ReadsBranches [[.atom (.escape [d])]] [.atom (.escape [d])] := .last (.atom _)
    have hinner : ReadsBranches [[.atom (.escape [d])]] (readLevels nested [.atom (.escape [d])]) := by
      rw [readLevels_singleton nested rfl]
      exact hbranch
    have hgroup := hescape.enclosed hinner (isLegible_plain.isFit nofun) nofun
    have hpiece := hbranch.enclosed (k := .group "(?:") (l := .opening "(?:") fun s => rfl
    refine ⟨ws ++ [Item.group "(?:" [[.atom (.escape [d])]]],
      ⟨ks ++ (Lexeme.opening "(?:" :: ([Lexeme.atom (.escape [d])] ++ [Lexeme.close]) ++ ms),
        hruns.spell_eq hks hms, ?_, ?_, ?_⟩, ?_, ?_⟩
    · refine hspelling.of_append.append (hgroup.append hspelling' fun l hl m _ => ?_) ?_
      · cases hl
        exact .of_takesSuffix nofun rfl
      · intro l _ m hm
        cases hm
        exact .of_next nofun nofun
    · rw [append_assoc, readLevels_append, readLevels_append, readLevels_cons nested rfl, readLevels_append,
        readLevels_singleton nested rfl, readLevels_singleton nested rfl]
      exact .last (hws.append (hpiece.append hreads'.pieces))
    · obtain ⟨e, he, hdigit⟩ := hruns.next
      obtain ⟨c, hc, ns, rfl⟩ := hspelling'.exists_char_of_head? (hms ▸ he) hdigit
      exact fun hD => .wrap hruns.digit hc (hthrifty hD) (hthrifty' hD)
    · rw [erasedParts_append, erasedParts_append]
      rfl
    · rw [length_append, length_append]
      rfl
  · have hruns : ∀ w d, ¬ RunsInto t u w d := fun w d h => hruns ⟨w, d, h⟩
    refine ⟨xs, ?_, rfl, rfl⟩
    rw [separate_eq_self hruns]
    exact h.append h' hruns

end RegexBuilder
