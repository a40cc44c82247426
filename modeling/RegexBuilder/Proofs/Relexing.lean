/-
# Reading lexemes that run into each other

Erasing plain groups keeps the atoms and the suffixes of a pattern, in their order: they are the *content* of the tree
(`Shape.content`). Lexemes that parentheses kept apart may run into each other when these are taken out; the content
is then another one, as an escape has got a second digit or a suffix has become lazy. So a text that is read with the
content it was spelled with is read as the lexemes that spelled it (`lexemes_eq_of_content`).
-/

import RegexBuilder.Proofs.Nesting
import RegexBuilder.Proofs.Opening

namespace RegexBuilder

open List Option

/-! ### The content of a tree -/

/-- The lexeme is an atom or a suffix. -/
def Lexeme.isContent : Lexeme → Bool
  | atom _ | times _ => true
  | opening _ | test _ | bar | close => false

namespace Shape

mutual

/-- The atoms and suffixes of the shape, in their order. -/
def content : Shape → List Lexeme
  | token a => [.atom a]
  | group _ bs => contentBranches bs
  | conditional _ ps => contentParts ps
  | repeated body b => contentBranches body ++ [Lexeme.times b]
  | choice bs => contentBranches bs

/-- The atoms and suffixes of the sequence. -/
def contentSequence : List Shape → List Lexeme
  | [] => []
  | s :: ss => s.content ++ contentSequence ss

/-- The atoms and suffixes of the branches. -/
def contentBranches : List (List Shape) → List Lexeme
  | [] => []
  | ss :: bs => contentSequence ss ++ contentBranches bs

/-- The atoms and suffixes of the branches of a conditional. -/
def contentParts : List (List (List Shape)) → List Lexeme
  | [] => []
  | bs :: ps => contentBranches bs ++ contentParts ps

end

theorem contentSequence_append (ss ss' : List Shape) :
    contentSequence (ss ++ ss') = contentSequence ss ++ contentSequence ss' := by
  induction ss with
  | nil => rfl
  | cons s ss ih => rw [cons_append, contentSequence, contentSequence, ih, append_assoc]

theorem contentBranches_append (bs cs : List (List Shape)) :
    contentBranches (bs ++ cs) = contentBranches bs ++ contentBranches cs := by
  induction bs with
  | nil => rfl
  | cons ss bs ih => rw [cons_append, contentBranches, contentBranches, ih, append_assoc]

/-- The content of branches is that of the branches in one list. -/
theorem contentParts_eq (ps : List (List (List Shape))) : contentParts ps = contentBranches ps.flatten := by
  induction ps with
  | nil => rfl
  | cons bs ps ih => rw [contentParts, flatten_cons, contentBranches_append, ih]

theorem contentSequence_parts (bs : List (List Shape)) : contentSequence (parts bs) = contentBranches bs := by
  match bs with
  | [ss] => exact (List.append_nil _).symm
  | [] => rfl
  | ss :: ss' :: bs => exact List.append_nil _

theorem contentBranches_sequence (ps : List (List (List Shape))) :
    contentBranches (sequence ps) = ps.flatMap contentBranches := by
  rw [← contentSequence_parts, parts_sequence]
  induction ps with
  | nil => rfl
  | cons bs ps ih =>
    rw [flatMap_cons, contentSequence_append, contentSequence_parts, ih, flatMap_cons]

end Shape

/-- The atoms and suffixes of the piece. -/
def Item.content (x : Item) : List Lexeme := Shape.contentBranches x.erase

/-- **Erasing plain groups keeps the content.** -/
theorem contentBranches_eraseBranches (bs : List (List Item)) :
    Shape.contentBranches (eraseBranches bs) = bs.flatten.flatMap Item.content := by
  unfold eraseBranches
  induction bs with
  | nil => rfl
  | cons xs bs ih =>
    rw [eraseEach, flatten_cons, Shape.contentBranches_append, ih, flatten_cons,
      flatMap_append, Shape.contentBranches_sequence, erasePieces_eq_map, flatMap_map]
    rfl

theorem Head.content_item (k : Head) (bs : List (List Item)) :
    (k.item bs).content = bs.flatten.flatMap Item.content := by
  rw [← contentBranches_eraseBranches]
  cases k with
  | group t =>
    show Shape.contentBranches (Item.group t bs).erase = _
    by_cases ht : t = "(?:"
    · rw [ht, erase_plain]
    · rw [erase_group ht]
      simp [Shape.contentBranches, Shape.contentSequence, Shape.content]
  | conditional t =>
    show Shape.contentBranches [[Shape.conditional t (eraseEach bs)]] = _
    simp [Shape.contentBranches, Shape.contentSequence, Shape.content, Shape.contentParts_eq, eraseBranches]

theorem Level.flatten_append (l : Level) (xs : List Item) : (l.append xs).all.flatten = l.all.flatten ++ xs := by
  simp [Level.all, Level.append]

variable {ls : List Lexeme} {t r : Text} {b : Bounds}

/-- **The content of what was read is that of its lexemes.** -/
theorem Level.Reads.content_eq {l : Level} (h : l.Reads ls) :
    ls.filter Lexeme.isContent = Shape.contentBranches (eraseBranches l.all) := by
  rw [contentBranches_eraseBranches]
  induction h with
  | start => rfl
  | atom h a ih =>
    rw [filter_append, ih, Level.flatten_append, flatMap_append]
    rfl
  | bar h ih =>
    rw [filter_append, ih]
    simp [Level.all, Lexeme.isContent]
  | @times bs xs x ls h hx b ih =>
    rw [filter_append, ih]
    simp [Level.all, Lexeme.isContent, Item.content, Item.erase, Shape.contentBranches,
      Shape.contentSequence, Shape.content]
  | enclosed h hm k ih ihm =>
    have hopen : k.lexeme.isContent = false := by cases k <;> rfl
    rw [filter_append, filter_cons_of_neg (by simp [hopen]), filter_append, ih, ihm,
      Level.flatten_append, flatMap_append, flatMap_singleton, Head.content_item]
    simp [Lexeme.isContent]

/-! ### Lexemes that run into each other -/

theorem Text.cut_append_of_eq {g : Glyph} {v : Text} (h : Text.cut g t = (v, some r)) (u : Text) :
    Text.cut g (t ++ u) = (v, some (r ++ u)) := by
  induction t generalizing v with
  | nil => cases h
  | cons e t ih =>
    rw [cons_append, Text.cut]
    rw [Text.cut] at h
    split at h
    · next he =>
      cases h
      rw [if_pos he]
    · next he =>
      obtain ⟨rfl, hr⟩ := Prod.mk.inj h
      rw [if_neg he, ih (Prod.ext rfl hr)]

theorem greedy_of_repetition? (h : repetition? t = some b) : b.greedy = true := by
  unfold repetition? at h
  split at h
  · obtain ⟨n, -, rfl⟩ := map_eq_some_iff.1 h
    rfl
  · obtain ⟨n, -, rfl⟩ := map_eq_some_iff.1 h
    rfl
  · obtain ⟨n, -, h⟩ := bind_eq_some_iff.1 h
    obtain ⟨m, -, rfl⟩ := map_eq_some_iff.1 h
    rfl

/-- What follows a suffix does not change how it is read up to the mark of a lazy one. -/
theorem count?_append {c : Char} (h : count? c t = some (b, r)) (u : Text) :
    count? c (t ++ u) = some (b, r ++ u) ∧ b.greedy = true := by
  unfold count? at h ⊢
  split_ifs at h ⊢
  · cases h
    exact ⟨rfl, rfl⟩
  · cases h
    exact ⟨rfl, rfl⟩
  · cases h
    exact ⟨rfl, rfl⟩
  · split at h
    · next v rest hcut =>
      obtain ⟨b', hb', hpair⟩ := map_eq_some_iff.1 h
      cases hpair
      rw [Text.cut_append_of_eq hcut u]
      refine ⟨?_, greedy_of_repetition? hb'⟩
      show (repetition? v).map _ = _
      rw [hb']
      rfl
    · cases h

theorem Bounds.exists_suffix_eq_cons (b : Bounds) : ∃ c t, b.suffix = .char c :: t ∧ c ∈ ['?', '*', '+', '\x7b'] := by
  have hcount : ∃ c t, b.count = .char c :: t ∧ c ∈ ['?', '*', '+', '\x7b'] := by
    unfold count
    split_ifs
    · exact ⟨'?', _, rfl, by decide⟩
    · exact ⟨'*', _, rfl, by decide⟩
    · exact ⟨'+', _, rfl, by decide⟩
    all_goals exact ⟨'\x7b', _, rfl, by decide⟩
  obtain ⟨c, t, hcount, hc⟩ := hcount
  unfold suffix
  split
  · exact ⟨c, t, hcount, hc⟩
  · exact ⟨c, t ++ "?", by rw [hcount]; rfl, hc⟩

/-- **A `?` behind a suffix is taken by a greedy one,** which is then read as another suffix, and left
by a lazy one. -/
theorem lexeme?_times (hb : (Lexeme.times b).IsLegible) (rest : Text) :
    lexeme? (b.suffix ++ Glyph.char '?' :: rest) = some (.times b, .char '?' :: rest) ∨
      ∃ b', b' ≠ b ∧ lexeme? (b.suffix ++ Glyph.char '?' :: rest) = some (.times b', rest) := by
  obtain ⟨c, t, hsuffix, hc⟩ := b.exists_suffix_eq_cons
  have hread : lexeme? (b.suffix ++ []) = some (.times b, []) := hb.read (Lexeme.apart_nil _)
  rw [List.append_nil, hsuffix, lexeme?_of_mem hc] at hread
  obtain ⟨⟨b₀, r⟩, hcount, hlazy⟩ := map_eq_some_iff.1 hread
  obtain ⟨hcount, hgreedy⟩ := count?_append hcount (.char '?' :: rest)
  rw [hsuffix, cons_append, lexeme?_of_mem hc, hcount]
  unfold lazy at hlazy
  split at hlazy
  · next heq =>
    cases heq
    cases hlazy
    exact .inl rfl
  · next heq =>
    cases heq
    cases hlazy
    refine .inr ⟨{ b with greedy := false }, fun h => ?_, rfl⟩
    rw [← h] at hgreedy
    cases hgreedy

/-- **A digit behind an escape of one digit is taken into the escape.** -/
theorem lexeme?_escape {d e : Glyph} (hd : d.isDigit = true) (he : e.isDigit = true) (rest : Text) :
    ∃ t rest', t ≠ [d] ∧
      lexeme? (.char '\\' :: d :: e :: rest) = some (.atom (.escape t), rest') := by
  cases d with
  | stray => cases hd
  | char c =>
    have hdigit : c.isDigit = true := hd
    have hc : c.isAlphanum = true := by simp [Char.isAlphanum, hdigit]
    have hlength : escapeLength (.char c :: e :: rest) = 2 + ((rest.take 1).takeWhile Glyph.isDigit).length := by
      rw [escapeLength, if_pos hd, take_succ_cons, takeWhile_cons_of_pos he, length_cons]
      omega
    have hle : ((rest.take 1).takeWhile Glyph.isDigit).length ≤ rest.length :=
      Nat.le_trans ( takeWhile_prefix _).length_le (take_sublist _ _).length_le
    have hread : lexeme? (.char '\\' :: .char c :: e :: rest) = some (.atom (.escape
        ((Glyph.char c :: e :: rest).take (escapeLength (.char c :: e :: rest)))),
        (Glyph.char c :: e :: rest).drop (escapeLength (.char c :: e :: rest))) := by
      show (escape? (.char c :: e :: rest)).map _ = _
      rw [escape?, if_pos hc, if_pos (by simp only [hlength, length_cons]; omega)]
      rfl
    refine ⟨_, _, fun h => ?_, hread⟩
    have hsize := congrArg List.length h
    simp only [hlength, length_take, length_cons, length_nil] at hsize
    omega

namespace Lexeme

variable {m : Lexeme} {rest : Text}

/-- What is spelled by a lexeme is read as that lexeme if no digit runs into it, or as one with
another content. -/
theorem IsLegible.read_or (hm : m.IsLegible) (hrest : m.isOpening = true → rest.head? ≠ some (.char '?')) :
    ((∀ {d e}, m = atom (.escape [d]) → d.isDigit → rest.head? = some e → e.isDigit = false) ∧
        lexeme? (m.form ++ rest) = some (m, rest)) ∨
      ∃ l rest', l ≠ m ∧ l.isContent = true ∧ m.isContent = true ∧
        lexeme? (m.form ++ rest) = some (l, rest') := by
  by_cases hdigit : ∃ d e, m = atom (.escape [d]) ∧ d.isDigit = true ∧ rest.head? = some e ∧
      e.isDigit = true
  · obtain ⟨d, e, rfl, hd, he, hdigit⟩ := hdigit
    obtain ⟨rest, rfl⟩ := List.head?_eq_some_iff.1 he
    obtain ⟨t, rest', ht, hread⟩ := lexeme?_escape hd hdigit rest
    exact .inr ⟨_, rest', by simpa using ht, rfl, rfl, hread⟩
  · have hdigit : ∀ {d e}, m = atom (.escape [d]) → d.isDigit = true → rest.head? = some e →
        e.isDigit = false := by
      intro d e hm hd he
      refine Bool.eq_false_iff.2 fun hdig => hdigit ⟨d, e, hm, hd, he, hdig⟩
    by_cases hsuffix : m.takesSuffix = false ∧ rest.head? = some (.char '?')
    · obtain ⟨hm', hhead⟩ := hsuffix
      obtain ⟨rest, rfl⟩ := List.head?_eq_some_iff.1 hhead
      cases m with
      | atom | close => cases hm'
      | opening | test => exact absurd hhead (hrest rfl)
      | bar => exact .inl ⟨hdigit, rfl⟩
      | times =>
        rcases lexeme?_times hm rest with hread | ⟨b', hb', hread⟩
        · exact .inl ⟨hdigit, hread⟩
        · exact .inr ⟨.times b', rest, by simpa using hb', rfl, rfl, hread⟩
    · refine .inl ⟨hdigit, hm.read ⟨hdigit, fun hm hhead => hsuffix ⟨hm, hhead⟩⟩⟩

/-- Only a suffix is spelled with a `?` at the beginning. -/
theorem IsLegible.head?_ne (hm : m.IsLegible) (htimes : ∀ b, m ≠ times b) :
    (m.form ++ rest).head? ≠ some (.char '?') := by
  obtain ⟨g, t, hform⟩ := exists_cons_of_ne_nil hm.form_ne_nil
  have hread := hm.read m.apart_nil
  rw [List.append_nil, hform] at hread
  rw [hform]
  intro hg
  cases hg
  obtain ⟨b, rfl⟩ := exists_times_of_lexeme? hread
  exact htimes b rfl

end Lexeme

/-- The first lexeme is what is read first. -/
theorem exists_of_lexemes? {rest : Text} {l : Lexeme} (hl : lexeme? t = some (l, rest))
    (h : lexemes? t = some ls) : ∃ ls', ls = l :: ls' := by
  cases t with
  | nil => cases hl
  | cons =>
    rw [lexemes?, cutAfter, hl] at h
    obtain ⟨ls', -, rfl⟩ := map_eq_some_iff.1 h
    exact ⟨ls', rfl⟩

/-- **What is read with the content it was spelled with is read as it was spelled,** if no suffix
stands behind an opening parenthesis. No digit then stands behind an escape of one digit. -/
theorem lexemes_eq_of_content {ms : List Lexeme} (hlegible : ∀ m ∈ ms, m.IsLegible)
    (hopening : ms.IsChain fun m next => m.isOpening = true → ∀ b, next ≠ .times b) (h : lexemes? (spell ms) = some ls)
    (hcontent : ls.filter Lexeme.isContent = ms.filter Lexeme.isContent) :
    ls = ms ∧ ms.IsChain fun m next => ∀ d c, m = .atom (.escape [d]) → d.isDigit = true →
      next = .atom (.char c) → c.isDigit = false := by
  induction ms generalizing ls with
  | nil =>
    cases h
    exact ⟨rfl, .nil⟩
  | cons m ms ih =>
    have hm := hlegible m mem_cons_self
    have hms : ∀ n ∈ ms, n.IsLegible := fun n hn => hlegible n (mem_cons_of_mem _ hn)
    have hrest : m.isOpening = true → (spell ms).head? ≠ some (.char '?') := by
      intro ho
      cases ms with
      | nil => exact fun h => (nomatch h)
      | cons next ms =>
        have hnext := (isChain_cons_cons.1 hopening).1 ho
        exact (hms next mem_cons_self).head?_ne hnext
    have h : lexemes? (m.form ++ spell ms) = some ls := h
    rcases hm.read_or hrest with ⟨hdigit, hread⟩ | ⟨l, rest', hne, hl, hm', hread⟩
    · have hskip : lexemes? (m.form ++ spell ms) = (lexemes? (spell ms)).map (m :: ·) :=
        cutAfter_of_read hm.form_ne_nil hread
      rw [hskip] at h
      obtain ⟨ls, hls, rfl⟩ := map_eq_some_iff.1 h
      have hcontent : ls.filter Lexeme.isContent = ms.filter Lexeme.isContent := by
        rw [filter_cons, filter_cons] at hcontent
        split at hcontent
        · exact (List.cons.inj hcontent).2
        · exact hcontent
      obtain ⟨rfl, hchain⟩ := ih hms hopening.tail hls hcontent
      refine ⟨rfl, ?_⟩
      cases ls with
      | nil => exact .singleton _
      | cons next ls =>
        refine isChain_cons_cons.2 ⟨?_, hchain⟩
        rintro d c hmd hd rfl
        refine Bool.eq_false_iff.2 fun hc => ?_
        have hform : escapeChar literalMeta c = [.char c] := if_neg (not_mem_literalMeta_of_isDigit hc)
        have hhead : (spell (.atom (.char c) :: ls)).head? = some (.char c) := by
          show (escapeChar literalMeta c ++ spell ls).head? = _
          rw [hform]
          rfl
        exact Bool.eq_false_iff.1 (hdigit hmd hd hhead) hc
    · -- the first lexemes are content, and not the same
      obtain ⟨ls, rfl⟩ := exists_of_lexemes? hread h
      rw [filter_cons_of_pos hl, filter_cons_of_pos hm'] at hcontent
      exact absurd (List.cons.inj hcontent).1 hne

end RegexBuilder
