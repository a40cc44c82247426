/-
# What opens a group and what follows a piece

The openings of groups, the options and the suffixes that a node writes are legible. A name ends at
its bracket because no glyph of a name is one; options end at a colon or a parenthesis; and the bounds
of a suffix are read as the numbers that they are (`Bounds.isLegible_times`).
-/

import RegexBuilder.Proofs.Legible

namespace RegexBuilder

open List Text

/-! ### What opens a group -/

/-- What stands between `(?<` and `>` is a name, if it does not look like a lookbehind. -/
theorem isLegible_angle {u : Text} (hclose : .char '>' ∉ u) (heq : .char '=' ∉ u)
    (hbang : .char '!' ∉ u) : (Lexeme.opening ("(?<" ++ u ++ ">")).IsLegible := by
  refine .of_ending (v := "(?<" ++ u) (g := .char '>') rfl rfl (by decide) fun {rest} _ => ?_
  have hhead : ∀ c t, u ++ Glyph.char '>' :: rest = .char c :: t → c ≠ '>' → .char c ∈ u := by
    intro c t h hc
    cases u with
    | nil => exact absurd (Glyph.char.inj (List.cons.inj h).1).symm hc
    | cons =>
      cases (List.cons.inj h).1
      exact mem_cons_self
  rw [Lexeme.form, append_assoc, append_assoc]
  show angle? (u ++ Glyph.char '>' :: rest) = _
  unfold angle?
  split
  · next h => exact absurd (hhead _ _ h (by decide)) heq
  · next h => exact absurd (hhead _ _ h (by decide)) hbang
  · exact until?_append hclose _ rest

/-- **What opens an enclosure is legible,** if the names in it have passed their checks. -/
theorem Enclosure.isLegible_opening {how : Enclosure}
    (hname : ∀ name, how = .named name → checkName .name name = .ok ())
    (hbalancing : ∀ name other, how = .balancing name other →
      (name ≠ [] → checkName .name name = .ok ()) ∧ checkName .other other = .ok ()) :
    (Lexeme.opening how.opening).IsLegible := by
  have hnot : ∀ {role name c}, checkName role name = .ok () → c ∈ ['\\', '>', ')', '=', '!'] →
      .char c ∉ name := fun h hc =>
    not_mem_of_forall (isNameGlyph_of_mem h) (isNameGlyph_eq_false _ hc)
  cases how with
  | capture =>
    refine .of_ending (v := []) rfl rfl (by decide) fun {rest} hrest => ?_
    show opening? rest = _
    have hhead := hrest.suffix rfl
    unfold opening?
    split
    all_goals first | rfl | exact absurd rfl hhead
  | named name =>
    have h := hname name rfl
    exact isLegible_angle (hnot h (by decide)) (hnot h (by decide)) (hnot h (by decide))
  | balancing name other =>
    obtain ⟨h, hother⟩ := hbalancing name other rfl
    have hboth : ∀ c ∈ ['>', '=', '!'], .char c ∉ name ++ "-" ++ other := by
      intro c hc hmem
      have hc' : c ∈ ['\\', '>', ')', '=', '!'] := by
        revert hc
        simp only [mem_cons]
        tauto
      rcases mem_append.1 hmem with hmem | hmem
      · rcases mem_append.1 hmem with hmem | hmem
        · exact hnot (h (ne_nil_of_mem hmem)) hc' hmem
        · cases Glyph.char.inj (mem_singleton.1 hmem)
          exact absurd hc (by decide)
      · exact hnot hother hc' hmem
    have hopening : (Enclosure.balancing name other).opening = "(?<" ++ (name ++ "-" ++ other) ++ ">" := by
      simp [opening]
    rw [hopening]
    exact isLegible_angle (hboth _ (by decide)) (hboth _ (by decide)) (hboth _ (by decide))
  | atomic => exact .of_ending (v := "(?") rfl rfl (by decide) fun _ => rfl
  | look kind =>
    cases kind with
    | behind | notBehind => exact .of_ending (v := "(?<") rfl rfl (by decide) fun _ => rfl
    | ahead | notAhead | undeclared => exact .of_ending (v := "(?") rfl rfl (by decide) fun _ => rfl

theorem isFlag_of_mem_letters {o : Options} {g : Glyph} (h : g ∈ o.letters) : isFlag g = true := by
  obtain ⟨e, he, rfl⟩ := mem_map.1 h
  have htable : ∀ e ∈ Options.table, isFlag (.char e.1) = true := by decide
  exact htable e (mem_filter.1 he).1

theorem isFlag_of_mem_optionFlags {on off : Options} {g : Glyph} (h : g ∈ optionFlags on off) : isFlag g = true := by
  unfold optionFlags at h
  split at h
  · exact isFlag_of_mem_letters h
  · rcases mem_append.1 h with h | h
    · rcases mem_append.1 h with h | h
      · exact isFlag_of_mem_letters h
      · cases mem_singleton.1 h
        rfl
    · exact isFlag_of_mem_letters h

/-- Options are read up to the glyph behind them. -/
theorem lexeme?_options {flags : Text} (h : ∀ g ∈ flags, isFlag g = true) {c : Char}
    (hc : c = ':' ∨ c = ')') (rest : Text) : lexeme? (.char '(' :: .char '?' :: (flags ++ Glyph.char c :: rest)) =
      options? (flags ++ Glyph.char c :: rest) := by
  have hhead : ∀ c' t, flags ++ Glyph.char c :: rest = .char c' :: t →
      isFlag (.char c') = true ∨ c' = ':' ∨ c' = ')' := by
    intro c' t ht
    cases flags with
    | nil =>
      cases (List.cons.inj ht).1
      exact .inr hc
    | cons =>
      cases (List.cons.inj ht).1
      exact .inl (h _ mem_cons_self)
  generalize flags ++ Glyph.char c :: rest = t at hhead
  show opening? (.char '?' :: t) = _
  unfold opening?
  split
  case h_7 heq => exact congrArg options? (List.cons.inj heq).2.symm
  case h_8 h => exact absurd rfl (h t)
  all_goals
    next heq => exact absurd (hhead _ _ (List.cons.inj heq).2) (by decide)

/-- **Options are legible,** those for a group and those for what follows. -/
theorem isLegible_options (on off : Options) : (Lexeme.opening ("(?" ++ optionFlags on off ++ ":")).IsLegible ∧
    (Lexeme.atom (.note ("(?" ++ optionFlags on off ++ ")"))).IsLegible := by
  have hflags : ∀ g ∈ optionFlags on off, isFlag g = true := fun _ => isFlag_of_mem_optionFlags
  constructor
  all_goals
    refine .of_ending (v := "(?" ++ optionFlags on off) rfl rfl (by decide) fun {rest} _ => ?_
    simp only [Lexeme.form, Atom.form, append_assoc]
    refine (lexeme?_options hflags (by decide) rest).trans ?_
    rw [options?, takeWhile_append hflags rfl, dropWhile_append hflags rfl]
    rfl

/-- What opens a conditional is legible. -/
theorem isLegible_test {t : Text} (h : .char ')' ∉ t) : (Lexeme.test t).IsLegible := by
  refine .of_ending (v := "(?(" ++ t) (g := .char ')') rfl rfl (by decide) fun {rest} _ => ?_
  rw [Lexeme.form, append_assoc, append_assoc]
  exact until?_append h _ rest

/-! ### Suffixes -/

/-- **A number is read from its digits.** -/
theorem Text.ofDigits?_ofNat (n : Nat) : ofDigits? 10 (ofNat n) = some n :=
  ofDigits?_toDigits (by decide) (by decide) n

theorem Text.numeral?_ofNat (n : Nat) : numeral? (ofNat n) = some (n : Int) := by
  rw [numeral?, if_neg (ofNat_ne_nil n), ofDigits?_ofNat]
  rfl

theorem repetition?_exactly (n : Nat) : repetition? (Text.ofNat n) = some ⟨n, n, true⟩ := by
  rw [repetition?, cut_of_not_mem (not_mem_ofNat rfl n)]
  show (numeral? (Text.ofNat n)).map _ = _
  rw [numeral?_ofNat]
  rfl

theorem repetition?_atLeast (n : Nat) : repetition? (Text.ofNat n ++ ",") = some ⟨n, unbounded, true⟩ := by
  have hcut : Text.cut (.char ',') (Text.ofNat n ++ ",") = (Text.ofNat n, some []) :=
    cut_append (not_mem_ofNat rfl n) []
  rw [repetition?, hcut]
  show (numeral? (Text.ofNat n)).map _ = _
  rw [numeral?_ofNat]
  rfl

theorem repetition?_between (n m : Nat) : repetition? (Text.ofNat n ++ "," ++ Text.ofNat m) = some ⟨n, m, true⟩ := by
  obtain ⟨g, t, hm⟩ := exists_cons_of_ne_nil (ofNat_ne_nil m)
  have hcut : Text.cut (.char ',') (Text.ofNat n ++ "," ++ Text.ofNat m) = (Text.ofNat n, some (g :: t)) := by
    rw [append_assoc, ← hm]
    exact cut_append (not_mem_ofNat rfl n) _
  rw [repetition?, hcut]
  show (numeral? (Text.ofNat n)).bind (fun n => (numeral? (g :: t)).map _) = _
  rw [← hm, numeral?_ofNat, numeral?_ofNat]
  rfl

/-- What stands between braces is read up to the closing one. -/
theorem count?_brace {u : Text} {b : Bounds} (hu : .char '\x7d' ∉ u) (hb : repetition? u = some b)
    (rest : Text) : count? '\x7b' (u ++ Glyph.char '\x7d' :: rest) = some (b, rest) := by
  rw [count?, if_neg (by decide), if_neg (by decide), if_neg (by decide), cut_append hu]
  show (repetition? u).map _ = _
  rw [hb]
  rfl

namespace Bounds

/-- The suffix without the mark of a lazy one is read as the bounds. -/
theorem exists_count?_eq {b : Bounds} (h : b.objection? = none) :
    ∃ c t, b.count = .char c :: t ∧ c ∈ ['?', '*', '+', '\x7b'] ∧
      ∀ rest, count? c (t ++ rest) = some (⟨b.min, b.max, true⟩, rest) := by
  have hbrace : ∀ n, .char '\x7d' ∉ Text.ofNat n := not_mem_ofNat rfl
  obtain ⟨min, max, greedy⟩ := b
  have hunbounded : unbounded = -1 := rfl
  simp only [objection?] at h
  split at h
  · cases h
  next hmin =>
  split at h
  · cases h
  next hmax =>
  obtain ⟨n, rfl⟩ := Int.eq_ofNat_of_zero_le (Int.not_lt.1 hmin)
  simp only [count]
  split
  · next hopt => exact ⟨'?', [], rfl, by decide, fun rest => by rw [hopt.1, hopt.2]; rfl⟩
  split
  · next hstar => exact ⟨'*', [], rfl, by decide, fun rest => by rw [hstar.1, hstar.2]; rfl⟩
  split
  · next hplus => exact ⟨'+', [], rfl, by decide, fun rest => by rw [hplus.1, hplus.2]; rfl⟩
  split
  · next hexact =>
    refine ⟨'\x7b', _, rfl, by decide, fun rest => ?_⟩
    rw [← hexact]
    show count? '\x7b' (Text.ofNat n ++ "\x7d" ++ rest) = _
    rw [append_assoc]
    exact count?_brace (hbrace n) (repetition?_exactly n) rest
  split
  · next hopen =>
    refine ⟨'\x7b', _, rfl, by decide, fun rest => ?_⟩
    rw [hopen]
    show count? '\x7b' (Text.ofNat n ++ ("," ++ "\x7d") ++ rest) = _
    rw [← append_assoc, append_assoc]
    refine count?_brace ?_ (repetition?_atLeast n) rest
    simp only [mem_append, hbrace n, false_or]
    decide
  · next hopen =>
    obtain ⟨m, rfl⟩ := Int.eq_ofNat_of_zero_le (by omega : 0 ≤ max)
    refine ⟨'\x7b', _, rfl, by decide, fun rest => ?_⟩
    show count? '\x7b' (Text.ofNat n ++ "," ++ Text.ofNat m ++ "\x7d" ++ rest) = _
    rw [append_assoc]
    refine count?_brace ?_ (repetition?_between n m) rest
    simp only [mem_append, hbrace n, hbrace m, false_or, or_false]
    decide

theorem exists_count_eq_append (b : Bounds) : ∃ v c, b.count = v ++ [Glyph.char c] ∧ c ∈ ['?', '*', '+', '\x7d'] := by
  unfold count
  split_ifs
  · exact ⟨[], '?', rfl, by decide⟩
  · exact ⟨[], '*', rfl, by decide⟩
  · exact ⟨[], '+', rfl, by decide⟩
  · exact ⟨_, '\x7d', rfl, by decide⟩
  · refine ⟨"\x7b" ++ Text.ofInt b.min ++ ",", '\x7d', ?_, by decide⟩
    rw [append_assoc _ (Text.ofString ",")]
    rfl
  · exact ⟨_, '\x7d', rfl, by decide⟩

/-- **A suffix is read as the bounds that it is written for,** if there is no objection to them. -/
theorem isLegible_times {b : Bounds} (h : b.objection? = none) : (Lexeme.times b).IsLegible := by
  obtain ⟨c, t, hcount, hc, hread⟩ := exists_count?_eq h
  have hlexeme : ∀ rest, lexeme? (b.count ++ rest) = some (lazy (⟨b.min, b.max, true⟩, rest)) := by
    intro rest
    rw [hcount, cons_append, lexeme?_of_mem hc, hread]
    rfl
  have hend : ∀ c ∈ ['?', '*', '+', '\x7d'], (Glyph.char c).isDigit = false ∧
      Glyph.char c ≠ .char '\\' := all_iff_forall_prop.1 (by decide)
  obtain ⟨min, max, greedy⟩ := b
  cases greedy with
  | true =>
    obtain ⟨v, c', hv, hc'⟩ := exists_count_eq_append ⟨min, max, true⟩
    refine .of_ending (v := v) (g := .char c') hv (hend c' hc').1 (hend c' hc').2 fun {rest} hrest => ?_
    refine (hlexeme rest).trans ?_
    have hhead := hrest.suffix rfl
    unfold lazy
    split
    · next heq =>
      cases heq
      exact absurd rfl hhead
    · next heq =>
      cases heq
      rfl
  | false =>
    refine .of_ending (v := count ⟨min, max, false⟩) (g := .char '?') rfl rfl (by decide) fun {rest} _ => ?_
    show lexeme? (count ⟨min, max, false⟩ ++ "?" ++ rest) = _
    rw [append_assoc]
    exact hlexeme ("?" ++ rest)

end Bounds

end RegexBuilder
