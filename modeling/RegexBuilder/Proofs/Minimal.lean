/-
# No plain group can be left out

Whatever lexemes are read as a tree, they have as many plain groups as the tree needs, beside those that are *idle*,
which are put around nothing or around one atom (`Level.Reads.need_le`). The writer adds no more than the tree needs,
beside those that keep an escape apart from a digit (`IsThrifty`), and these are idle. So the digit runs into the
escape without such a group, and without any other group there are too few for the tree (`Graph.render_minimal`).
-/

import Mathlib.Algebra.GroupWithZero.Nat
import RegexBuilder.Proofs.Faithful
import RegexBuilder.Proofs.Relexing

namespace RegexBuilder

open List
open Shape (needBranches needSequence needParts)

/-! ### Idle groups -/

/-- The lexemes begin with a plain group around nothing or around one atom. -/
def isIdle : List Lexeme → Bool
  | .opening t :: .close :: _ => t = "(?:"
  | .opening t :: .atom _ :: .close :: _ => t = "(?:"
  | _ => false

/-- The number of plain groups around nothing or around one atom. -/
def idles (ls : List Lexeme) : Nat := ls.tails.countP isIdle

variable {ls ms : List Lexeme} {l : Level}

theorem isIdle_iff : isIdle ls = true ↔ (∃ ms, ls = .opening "(?:" :: .close :: ms) ∨
      ∃ a ms, ls = .opening "(?:" :: .atom a :: .close :: ms := by
  constructor
  · intro h
    unfold isIdle at h
    split at h
    · cases of_decide_eq_true h
      exact .inl ⟨_, rfl⟩
    · cases of_decide_eq_true h
      exact .inr ⟨_, _, rfl⟩
    · cases h
  · rintro (⟨ms, rfl⟩ | ⟨a, ms, rfl⟩)
    · rfl
    · rfl

theorem isIdle_of_isWrap (h : isWrap ls = true) : isIdle ls = true := by
  obtain ⟨d, c, ms, -, -, rfl⟩ := isWrap_iff.1 h
  rfl

theorem isIdle_append (h : isIdle ls = true) : isIdle (ls ++ ms) = true := by
  rcases isIdle_iff.1 h with ⟨ns, rfl⟩ | ⟨a, ns, rfl⟩
  · rfl
  · rfl

theorem idles_cons (l : Lexeme) (ls : List Lexeme) :
    idles (l :: ls) = idles ls + if isIdle (l :: ls) then 1 else 0 := by
  rw [idles, List.tails, countP_cons, idles]

theorem idles_cons_of_not_isOpening {l : Lexeme} (hl : l.isOpening = false) (ls : List Lexeme) :
    idles (l :: ls) = idles ls := by
  rw [idles_cons]
  cases l <;> first | rfl | cases hl

/-- Three lexemes tell whether a group is idle. -/
theorem isIdle_of_three (l m n : Lexeme) (ls ms : List Lexeme) :
    isIdle (l :: m :: n :: ls) = isIdle (l :: m :: n :: ms) := by
  cases l <;> cases m <;> cases n <;> rfl

/-- What follows a closing parenthesis does not matter for what is opened before it. -/
theorem isIdle_cons_close (l : Lexeme) (ms rest : List Lexeme) :
    isIdle (l :: (ms ++ Lexeme.close :: rest)) = isIdle (l :: (ms ++ [Lexeme.close])) := by
  match ms with
  | [] => cases l <;> rfl
  | [m] => cases l <;> cases m <;> rfl
  | m :: n :: ms => exact isIdle_of_three l m n _ _

/-- What is opened does not matter for what was opened before it. -/
theorem idles_append_opening {o : Lexeme} (ho : o.isOpening = true) (ls rest : List Lexeme) :
    idles (ls ++ o :: rest) = idles ls + idles (o :: rest) := by
  have hidle : ∀ l ls, isIdle (l :: (ls ++ o :: rest)) = isIdle (l :: ls) := by
    intro l ls
    match ls with
    | [] => cases l <;> cases o <;> first | rfl | cases ho
    | [m] => cases l <;> cases m <;> cases o <;> first | rfl | cases ho
    | m :: n :: ls => exact isIdle_of_three l m n _ _
  induction ls with
  | nil =>
    rw [List.nil_append]
    exact (Nat.zero_add _).symm
  | cons l ls ih =>
    rw [cons_append, idles_cons, ih, hidle, idles_cons l]
    omega

/-- **Behind a level nothing is added to the groups in it.** -/
theorem Level.Reads.idles_append (h : l.Reads ls) (rest : List Lexeme) :
    idles (ls ++ rest) = idles ls + idles rest := by
  have hnil : idles [] = 0 := rfl
  -- an idle group does not begin with a lexeme that opens nothing
  have hlast : ∀ {n : Lexeme} {ls : List Lexeme}, n.isOpening = false →
      (∀ rest, idles (ls ++ rest) = idles ls + idles rest) → ∀ rest,
      idles (ls ++ [n] ++ rest) = idles (ls ++ [n]) + idles rest := by
    intro n ls hn ih rest
    rw [append_assoc, singleton_append, ih, ih [n], idles_cons_of_not_isOpening hn,
      idles_cons_of_not_isOpening hn, hnil, Nat.add_zero]
  induction h generalizing rest with
  | start => rw [List.nil_append, hnil, Nat.zero_add]
  | atom h a ih | bar h ih | times h hx b ih => exact hlast rfl ih rest
  | @enclosed l m ls ms h hm k ih ihm =>
    have hclose : ∀ rest, idles (.close :: rest) = idles rest := idles_cons_of_not_isOpening rfl
    rw [append_assoc, cons_append, append_assoc, singleton_append, ih, ih,
      idles_cons, idles_cons k.lexeme, isIdle_cons_close, ihm, ihm, hclose, hclose, hnil]
    omega

/-! ### A tree needs its groups -/

/-- The plain groups without which the piece is not written where a suffix may follow it. -/
def Item.need (x : Item) : Nat :=
  needBranches x.erase + if x.isRepeated || Shape.takesSuffix x.erase then 0 else 1

theorem Item.needSequence_le (x : Item) : needSequence (Shape.parts x.erase) ≤ x.need := by
  rw [Shape.needSequence_parts, Item.need]
  by_cases hlength : x.erase.length = 1
  · rw [if_pos hlength]
    omega
  · have hrepeated : x.isRepeated = false := by
      cases x with
      | repeated => exact absurd rfl hlength
      | atom | group | conditional => rfl
    rw [if_neg hlength, hrepeated, Shape.takesSuffix_of_length hlength]
    exact Nat.le_refl _

/-- The plain groups without which the pieces are not written. -/
def needPieces (xs : List Item) : Nat := (xs.map Item.need).sum

theorem needPieces_append (xs ys : List Item) : needPieces (xs ++ ys) = needPieces xs + needPieces ys := by
  rw [needPieces, map_append, sum_append, needPieces, needPieces]

theorem needPieces_singleton (x : Item) : needPieces [x] = x.need := sum_singleton

theorem needParts_eraseEach_le (bs : List (List Item)) : needParts (eraseEach bs) ≤ needPieces bs.flatten := by
  have hbranch : ∀ xs, needSequence (erasedParts xs) ≤ needPieces xs := by
    intro xs
    induction xs with
    | nil => exact Nat.le_refl _
    | cons x xs ih =>
      have hx := x.needSequence_le
      have hcons : erasedParts (x :: xs) = Shape.parts x.erase ++ erasedParts xs := rfl
      rw [hcons, Shape.needSequence_append, ← singleton_append, needPieces_append, needPieces_singleton]
      omega
  rw [Shape.needParts_eq]
  induction bs with
  | nil => exact Nat.le_refl _
  | cons xs bs ih =>
    have hxs := hbranch xs
    rw [eraseEach, flatMap_cons, Shape.parts_sequence, Shape.needSequence_append,
      flatten_cons, needPieces_append]
    exact Nat.add_le_add hxs ih

/-- **Branches need no more groups than their pieces.** -/
theorem needBranches_eraseBranches_le (bs : List (List Item)) :
    needBranches (eraseBranches bs) ≤ needPieces bs.flatten := by
  refine Nat.le_trans ?_ (needParts_eraseEach_le bs)
  unfold eraseBranches
  induction eraseEach bs with
  | nil => exact Nat.le_refl _
  | cons =>
    rw [flatten_cons, Shape.needBranches_append, needParts]
    omega

/-- Parentheses need no more groups than what stands between them, and a plain group is one more. -/
theorem Head.need_item_le (k : Head) (bs : List (List Item)) :
    (k.item bs).need ≤
      needPieces bs.flatten + if k.lexeme = .opening "(?:" then 1 else 0 := by
  have hbranches := needBranches_eraseBranches_le bs
  cases k with
  | group t =>
    by_cases ht : t = "(?:"
    · subst ht
      have hplain : (Head.group "(?:").lexeme = .opening "(?:" := rfl
      show (Item.group "(?:" bs).need ≤ _
      rw [Item.need, erase_plain, if_pos hplain]
      split <;> omega
    · show (Item.group t bs).need ≤ _
      rw [Item.need, erase_group ht]
      simp only [Shape.needBranches_one, Shape.need, Shape.takesSuffix, Bool.or_true, if_true]
      omega
  | conditional t =>
    have hparts := needParts_eraseEach_le bs
    show needBranches [[.conditional t (eraseEach bs)]] + 0 ≤ _
    rw [Shape.needBranches_one, Shape.need]
    omega

/-- An idle group needs nothing. -/
theorem Level.Reads.need_of_isIdle {m : Level} (h : m.Reads ms) {k : Head}
    (hidle : isIdle (k.lexeme :: (ms ++ [Lexeme.close])) = true) :
    (k.item m.all).need = 0 ∧ idles ms = 0 ∧ k.lexeme = .opening "(?:" := by
  have hk : ∀ {ns}, k.lexeme :: (ms ++ [Lexeme.close]) = .opening "(?:" :: ns → k = .group "(?:" := by
    intro ns hns
    cases k with
    | group => exact congrArg Head.group (Lexeme.opening.inj (List.cons.inj hns).1)
    | conditional => cases (List.cons.inj hns).1
  rcases isIdle_iff.1 hidle with ⟨ns, hns⟩ | ⟨a, ns, hns⟩
  · obtain ⟨rfl, -⟩ := h.append_close_inj .start (List.cons.inj hns).2
    obtain hall : [[]] = m.all := Option.some.inj h.branches?_eq
    rw [hk hns, ← hall]
    exact ⟨rfl, rfl, rfl⟩
  · obtain ⟨rfl, -⟩ := h.append_close_inj (.atom .start a) (List.cons.inj hns).2
    obtain hall : [[.atom a]] = m.all := Option.some.inj h.branches?_eq
    rw [hk hns, ← hall]
    exact ⟨rfl, rfl, rfl⟩

/-- Lexemes have the plain groups that their pieces need, beside the idle ones. -/
theorem Level.Reads.needPieces_le (h : l.Reads ls) : needPieces l.all.flatten + idles ls ≤ plains ls := by
  have hnil : idles [] = 0 := rfl
  have hlast : ∀ {l : Level} {ls : List Lexeme} {n : Lexeme}, l.Reads ls → n.isOpening = false →
      idles (ls ++ [n]) = idles ls ∧ plains (ls ++ [n]) = plains ls := by
    intro l ls n h hn
    have hplain : n ≠ .opening "(?:" := by
      rintro rfl
      cases hn
    refine ⟨?_, ?_⟩
    · rw [h.idles_append, idles_cons_of_not_isOpening hn, hnil, Nat.add_zero]
    · rw [plains_append, plains_cons, if_neg hplain]
      rfl
  induction h with
  | start => exact Nat.le_refl _
  | @atom l ls h a ih =>
    have hatom : (Item.atom a).need = 0 := rfl
    obtain ⟨hidles, hplains⟩ := hlast h (n := .atom a) rfl
    rw [Level.flatten_append, needPieces_append, needPieces_singleton, hatom]
    omega
  | @bar l ls h ih =>
    obtain ⟨hidles, hplains⟩ := hlast h (n := .bar) rfl
    have hflatten : (Level.mk l.all []).all.flatten = l.all.flatten := by simp [Level.all]
    rw [hflatten]
    omega
  | @times bs xs x ls h hx b ih =>
    -- the suffix needs what its piece needed to take one
    have hneed : (Item.repeated x b).need = x.need := by
      rw [Item.need, Item.need, Item.erase, Shape.needBranches_one, Shape.need, hx]
      simp [Item.isRepeated]
    have hflatten : ∀ y, needPieces (Level.mk bs (xs ++ [y])).all.flatten = needPieces (bs.flatten ++ xs) + y.need := by
      intro y
      rw [← needPieces_singleton y, ← needPieces_append]
      simp [Level.all]
    obtain ⟨hidles, hplains⟩ := hlast h (n := .times b) rfl
    rw [hflatten] at ih ⊢
    omega
  | @enclosed l m ls ms h hm k ih ihm =>
    have hitem := k.need_item_le m.all
    have hclose : idles [.close] = 0 := rfl
    have hidles : idles (ls ++ k.lexeme :: (ms ++ [Lexeme.close])) = idles ls + idles ms +
        if isIdle (k.lexeme :: (ms ++ [Lexeme.close])) then 1 else 0 := by
      rw [h.idles_append, idles_cons, hm.idles_append, hclose]
      omega
    have hplains : plains (ls ++ k.lexeme :: (ms ++ [Lexeme.close])) =
        plains ls + plains ms + if k.lexeme = .opening "(?:" then 1 else 0 := by
      rw [plains_append, plains_cons, plains_append]
      exact (Nat.add_assoc ..).symm
    rw [Level.flatten_append, needPieces_append, needPieces_singleton, hidles, hplains]
    by_cases hidle : isIdle (k.lexeme :: (ms ++ [Lexeme.close])) = true
    · obtain ⟨hzero, hnone, hk⟩ := hm.need_of_isIdle hidle
      rw [if_pos hidle, if_pos hk]
      omega
    · rw [if_neg hidle]
      omega

/-- **Lexemes have the plain groups that their tree needs,** beside the idle ones. -/
theorem Level.Reads.need_le (h : l.Reads ls) : needBranches (eraseBranches l.all) + idles ls ≤ plains ls := by
  have hbranches := needBranches_eraseBranches_le l.all
  have hpieces := h.needPieces_le
  omega

/-! ### Taking a group out -/

/-- A plain group among the lexemes: what stands before it, in it and behind it. What stands in it can be read alone.
-/
structure IsPlainGroup (ls pre body post : List Lexeme) : Prop where
  eq : ls = pre ++ Lexeme.opening "(?:" :: (body ++ Lexeme.close :: post)
  closed : (branches? body).isSome = true

theorem wraps_le_idles (ls : List Lexeme) : wraps ls ≤ idles ls :=
  countP_mono_left fun _ _ h => isIdle_of_isWrap h

/-- **If there are no more idle groups than groups that keep a digit apart, each of them does.** -/
theorem isWrap_of_isIdle {pre rest : List Lexeme} (h : idles (pre ++ rest) ≤ wraps (pre ++ rest))
    (hidle : isIdle rest = true) : isWrap rest = true := by
  induction pre with
  | nil =>
    cases rest with
    | nil => cases hidle
    | cons l ls =>
      have hle := wraps_le_idles ls
      rw [List.nil_append, idles_cons, wraps_cons, if_pos hidle] at h
      by_contra hwrap
      rw [if_neg hwrap] at h
      omega
  | cons l pre ih =>
    refine ih ?_
    rw [cons_append, idles_cons, wraps_cons] at h
    by_cases hwrap : isWrap (l :: (pre ++ rest)) = true
    · rw [if_pos hwrap, if_pos (isIdle_of_isWrap hwrap)] at h
      omega
    · rw [if_neg hwrap] at h
      omega

namespace IsPlainGroup

variable {ls pre body post : List Lexeme}

section

variable (h : IsPlainGroup ls pre body post)

include h

theorem exists_reads : ∃ m : Level, m.Reads body := by
  obtain ⟨bs, hbs⟩ := Option.isSome_iff_exists.1 h.closed
  obtain ⟨m, hm, -⟩ := exists_reads_of_branches? hbs
  exact ⟨m, hm⟩

/-- Without a group that is not idle there is one plain group less, and no idle group is lost. -/
theorem counts (hidle : isIdle (.opening "(?:" :: (body ++ Lexeme.close :: post)) = false) :
    plains ls = plains (pre ++ (body ++ post)) + 1 ∧ idles ls ≤ idles (pre ++ (body ++ post)) := by
  obtain ⟨m, hm⟩ := h.exists_reads
  have hle : idles pre + idles (body ++ post) ≤ idles (pre ++ (body ++ post)) :=
    countP_tails_append_le rfl isIdle_append _ _
  have hclose : idles (.close :: post) = idles post := idles_cons_of_not_isOpening rfl _
  rw [h.eq]
  constructor
  · simp only [plains_append, plains_cons, reduceCtorEq, if_true, if_false]
    omega
  · rw [idles_append_opening rfl, idles_cons, hidle, hm.idles_append, hclose]
    rw [hm.idles_append] at hle
    simp only [Bool.false_eq_true, if_false]
    omega

/-- The content is that of all lexemes. -/
theorem content : (pre ++ (body ++ post)).filter Lexeme.isContent = ls.filter Lexeme.isContent := by
  rw [h.eq]
  simp [Lexeme.isContent]

theorem legible (hls : IsSpelling false ls) : ∀ m ∈ pre ++ (body ++ post), m.IsLegible := by
  intro m hm
  refine (hls.fit m ?_).isLegible
  rw [h.eq]
  simp only [mem_append, mem_cons] at hm ⊢
  rcases hm with hm | hm | hm
  · exact .inl hm
  · exact .inr (.inr (.inl hm))
  · exact .inr (.inr (.inr (.inr hm)))

/-- Without the parentheses no suffix stands behind an opening one. -/
theorem isChain (hls : IsSpelling false ls) (hbody : body ≠ []) :
    (pre ++ (body ++ post)).IsChain fun m next => m.isOpening = true → ∀ b, next ≠ .times b := by
  obtain ⟨m, hm⟩ := h.exists_reads
  have hall : ls.IsChain fun m next => m.isOpening = true → ∀ b, next ≠ .times b := by
    refine hls.apart.imp fun l next hl ho b hnext => ?_
    have htakes := hl.suffix hnext
    cases l with
    | opening | test => cases htakes
    | atom | bar | close | times => cases ho
  rw [h.eq] at hall
  have hinner := hall.right_of_append.tail
  refine hall.left_of_append.append (hinner.left_of_append.append hinner.right_of_append.tail ?_) ?_
  · intro l hl next _ ho
    rw [hm.isOpening_getLast hl] at ho
    cases ho
  · intro l _ next hnext _ b
    obtain ⟨n, body, rfl⟩ := exists_cons_of_ne_nil hbody
    have hhead : next ∈ (n :: body).head? := hnext
    exact hm.ne_times hhead b

/-- **Thrifty lexemes need each of their plain groups.** Without its parentheses the text is not read,
or as another tree. -/
theorem erase_ne (hls : IsSpelling false ls) {bs : List (List Item)}
    (hread : branches? ls = some bs) (hthrifty : IsThrifty (needBranches (eraseBranches bs)) ls)
    {bs' : List (List Item)} (hread' : readPattern? (spell (pre ++ (body ++ post))) = some bs') :
    eraseBranches bs' ≠ eraseBranches bs := by
  intro heq
  obtain ⟨l, hl, rfl⟩ := exists_reads_of_branches? hread
  obtain ⟨ms, hms, hread'⟩ := Option.bind_eq_some_iff.1 hread'
  obtain ⟨l', hl', rfl⟩ := exists_reads_of_branches? hread'
  -- every idle group keeps a digit apart
  have hwrap : isIdle (.opening "(?:" :: (body ++ Lexeme.close :: post)) = true →
      isWrap (.opening "(?:" :: (body ++ Lexeme.close :: post)) = true := by
    have hneed := hl.need_le
    unfold IsThrifty at hthrifty
    rw [h.eq] at hthrifty hneed
    have hcount : idles (pre ++ Lexeme.opening "(?:" :: (body ++ Lexeme.close :: post)) ≤
        wraps (pre ++ Lexeme.opening "(?:" :: (body ++ Lexeme.close :: post)) := by omega
    exact isWrap_of_isIdle hcount
  have hbody : body ≠ [] := by
    rintro rfl
    cases hwrap rfl
  -- the text is read as the lexemes that are left
  have hcontent : ms.filter Lexeme.isContent = (pre ++ (body ++ post)).filter Lexeme.isContent := by
    rw [h.content, hl.content_eq, hl'.content_eq, heq]
  obtain ⟨rfl, hdigit⟩ := lexemes_eq_of_content (h.legible hls) (h.isChain hls hbody) hms hcontent
  by_cases hidle : isIdle (.opening "(?:" :: (body ++ Lexeme.close :: post)) = true
  · -- the digit stands behind the escape now
    obtain ⟨d, c, ns, hd, hc, hwrap⟩ := isWrap_iff.1 (hwrap hidle)
    obtain ⟨m, hm⟩ := h.exists_reads
    obtain ⟨rfl, rfl⟩ := hm.append_close_inj (.atom .start (.escape [d])) (List.cons.inj hwrap).2
    have hnext := (isChain_cons_cons.1 hdigit.right_of_append).1 d c rfl hd rfl
    rw [hc] at hnext
    cases hnext
  · -- the tree needs more groups than are left
    obtain ⟨hplains, hidles⟩ := h.counts (Bool.eq_false_iff.2 hidle)
    have hneed := hl'.need_le
    have hwraps := wraps_le_idles ls
    unfold IsThrifty at hthrifty
    rw [heq] at hneed
    omega

end

end IsPlainGroup

/-- The text is read as the tree, and all of its plain groups are needed: where the two parentheses of one are deleted
the text is not read, or as another tree. -/
structure IsMinimallyGrouped (t : Text) (tree : List (List Shape)) (ls : List Lexeme) : Prop where
  lexemes : lexemes? t = some ls
  spelled : spell ls = t
  read : ∃ bs, branches? ls = some bs ∧ eraseBranches bs = tree
  paired : ∀ {pre rest}, ls = pre ++ Lexeme.opening "(?:" :: rest →
    ∃ body post, rest = body ++ Lexeme.close :: post ∧ IsPlainGroup ls pre body post
  needed : ∀ {pre body post}, IsPlainGroup ls pre body post →
    t = spell pre ++ "(?:" ++ spell body ++ ")" ++ spell post ∧
      ∀ {bs}, readPattern? (spell pre ++ spell body ++ spell post) = some bs →
        eraseBranches bs ≠ tree

namespace Graph

variable {g : Graph}

/-- **No plain group of a rendered pattern can be left out.** Let no cycle be reached from `r` in a
readable graph in which a group with options has an option. Then the text is read as the flattened
tree of `r`, and without the parentheses of any one plain group it is not. A conditional is read here
with any number of branches; a grammar that allows only two rejects more. -/
theorem render_minimal (hg : g.IsReadable) (hsets : g.SetsOptions) {r : Ref}
    (hr : ¬ g.HasCycleFrom r) {x : Rendering} (h : g.render r = .ok x) :
    ∃ ls, IsMinimallyGrouped x.text (g.flattened r) ls := by
  obtain ⟨bs, ⟨ls, htext, hls, hreads, hthrifty⟩, herase, -⟩ := hg.isWritable.rendered_render hr h
  have herase := herase rfl
  have hbranches := hreads.branches?_eq
  refine ⟨ls, htext ▸ hls.lexemes?_eq, htext, ⟨bs, hbranches, herase⟩, fun {pre rest} hpre => ?_,
    fun {pre body post} hgroup => ⟨?_, fun {bs'} hread => ?_⟩⟩
  · obtain ⟨l, hl, -⟩ := exists_reads_of_branches? hbranches
    obtain ⟨body, post, rfl, m, hm⟩ := hl.exists_close rfl hpre
    exact ⟨body, post, rfl, hpre, by rw [hm.branches?_eq]; rfl⟩
  · rw [← htext, hgroup.eq]
    simp [spell, Lexeme.form]
  · rw [append_assoc, ← spell_append, ← spell_append] at hread
    rw [← herase] at hthrifty ⊢
    exact hgroup.erase_ne hls hbranches (hthrifty ⟨rfl, hsets⟩) hread

/-- Groups of every kind: around an alternation in several places, around a suffix before another one, and around an
escape before a digit. -/
def groupedDigits : Graph :=
  ⟨#[.leaf (.backreference (.numbered 1)), .leaf (.literal "2"), .concat [some 0, some 1],
    .alternation [some 2, some 1], .quantified ⟨0, unbounded, true⟩ (some 3),
    .quantified ⟨0, 1, true⟩ (some 4), .conditional ⟨.groupNumber, 1, []⟩ none (some 3) (some 1),
    .concat [some 5, some 6, some 3]]⟩

theorem render_minimal_groupedDigits :
    groupedDigits.render (some 7) =
      .ok ⟨"(?:(?:(?:\\1)2|2)*)?(?(1)(?:(?:\\1)2|2)|2)(?:(?:\\1)2|2)", false⟩ ∧
    ∃ ls, plains ls = 7 ∧ IsMinimallyGrouped
      "(?:(?:(?:\\1)2|2)*)?(?(1)(?:(?:\\1)2|2)|2)(?:(?:\\1)2|2)"
      (groupedDigits.flattened (some 7)) ls := by
  have hrender : groupedDigits.render (some 7) =
      .ok ⟨"(?:(?:(?:\\1)2|2)*)?(?(1)(?:(?:\\1)2|2)|2)(?:(?:\\1)2|2)", false⟩ := by
    decide +kernel
  have hcondition : ∀ {i c e yes no}, groupedDigits.node? i = some (.conditional c e yes no) →
      c = ⟨.groupNumber, 1, []⟩ := fun h => by
    have hc := mem_nodes h
    simp only [groupedDigits, mem_toArray, mem_cons, reduceCtorEq, Node.conditional.injEq, not_mem_nil,
      or_false, false_or] at hc
    exact hc.1
  have hreadable : groupedDigits.IsReadable := by
    refine ⟨⟨⟨?raw, ?category, ?backreference, ?named, ?balancing, ?condition⟩, ?kind, ?member, ?bracket⟩,
      ?about, ?options⟩
    case backreference =>
      intro i b h hname
      obtain rfl : b = .numbered 1 := by simpa [groupedDigits] using mem_nodes h
      exact absurd rfl hname
    case condition =>
      intro i c e yes no h hkind
      rw [hcondition h] at hkind
      cases hkind
    case about => exact fun h => .inl (congrArg Condition.kind (hcondition h))
    all_goals exact fun h => by simpa [groupedDigits] using mem_nodes h
  have hsets : groupedDigits.SetsOptions := fun h => by simpa [groupedDigits] using mem_nodes h
  have hacyclic : ¬ groupedDigits.HasCycleFrom (some 7) := not_hasCycleFrom_of_lt (by decide) _
  have hplains : (lexemes? "(?:(?:(?:\\1)2|2)*)?(?(1)(?:(?:\\1)2|2)|2)(?:(?:\\1)2|2)").map plains =
      some 7 := by decide +kernel
  obtain ⟨ls, hls⟩ := render_minimal hreadable hsets hacyclic hrender
  rw [hls.lexemes] at hplains
  exact ⟨hrender, ls, Option.some.inj hplains, hls⟩

end Graph

end RegexBuilder
