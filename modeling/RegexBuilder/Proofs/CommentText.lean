/-
# Comments are read as comments

The reader finds the end of a comment where the writer put it, so a comment has no tokens (`IsComment.scans`). The
lines of a block are moved, and their blanks and carriage returns go; still no slash comes to follow a star before the
end (`exists_blockComment_eq`): each line is part of a line of the body, and the margin that is taken from the last
line has no star.
-/

import RegexBuilder.Proofs.SourceReader
import Mathlib.Data.List.Chain
import Mathlib.Data.List.DropRight

namespace RegexBuilder

open List Text

/-! ### Parts of a text -/

namespace Text

variable {g : Glyph} {a t l : Text}

/-- What stands before a text is put before its first part. -/
theorem split_append_left (ha : g ∉ a) {p : Text} {ps : List Text} (h : split g t = p :: ps) :
    split g (a ++ t) = (a ++ p) :: ps := by
  induction a with
  | nil => exact h
  | cons x a ih =>
    have hx : x ≠ g := fun h => ha (h ▸ mem_cons_self)
    have ha : g ∉ a := fun h => ha (mem_cons_of_mem _ h)
    rw [cons_append, split, if_neg hx, ih ha]
    rfl

theorem split_of_not_mem (ha : g ∉ a) : split g a = [a] := by
  have h := split_append_left (t := []) ha rfl
  simpa using h

theorem split_ne_nil (g : Glyph) (t : Text) : split g t ≠ [] := by
  cases t with
  | nil => nofun
  | cons =>
    rw [split]
    split
    · nofun
    · split <;> nofun

/-- What stands behind a text is put behind its last part. -/
theorem split_append_right (ha : g ∉ a) (t : Text) :
    split g (t ++ a) = (split g t).dropLast ++ [(split g t).getLastD [] ++ a] := by
  induction t with
  | nil => exact split_of_not_mem ha
  | cons x t ih =>
    obtain ⟨p, ps, hp⟩ := exists_cons_of_ne_nil (split_ne_nil g t)
    rw [hp] at ih
    rw [cons_append, split, split, ih, hp]
    cases ps with
    | nil | cons => split <;> simp

/-- The first part is the front of the text, and the others are parts of it. -/
theorem isPrefix_isInfix_of_split {p : Text} {ps : List Text} (h : split g t = p :: ps) :
    p <+: t ∧ ∀ l ∈ ps, l <:+: t := by
  induction t generalizing p ps with
  | nil =>
    cases h
    exact ⟨ nil_prefix, nofun⟩
  | cons x t ih =>
    obtain ⟨q, qs, hq⟩ := exists_cons_of_ne_nil (split_ne_nil g t)
    obtain ⟨hfirst, hrest⟩ := ih hq
    rw [split, hq] at h
    split at h
    · cases h
      refine ⟨ nil_prefix, fun l hl => infix_cons ?_⟩
      rcases mem_cons.1 hl with rfl | hl
      · exact hfirst.isInfix
      · exact hrest l hl
    · cases h
      exact ⟨cons_prefix_cons.2 ⟨rfl, hfirst⟩, fun l hl => infix_cons (hrest l hl)⟩

theorem isInfix_of_mem_split (h : l ∈ split g t) : l <:+: t := by
  obtain ⟨p, ps, hp⟩ := exists_cons_of_ne_nil (split_ne_nil g t)
  obtain ⟨hfirst, hrest⟩ := isPrefix_isInfix_of_split hp
  rcases mem_cons.1 (hp ▸ h) with rfl | h
  · exact hfirst.isInfix
  · exact hrest l h

/-- There is one part more than there are separators. -/
theorem length_split (g : Glyph) (t : Text) : (split g t).length = t.count g + 1 := by
  induction t with
  | nil => rfl
  | cons x t ih =>
    obtain ⟨p, ps, hp⟩ := exists_cons_of_ne_nil (split_ne_nil g t)
    rw [hp] at ih
    rw [split, hp, count_cons]
    split <;> simp_all

/-- A text with a separator has a first part and a last one. -/
theorem exists_split_of_mem (h : g ∈ t) : ∃ p ps q, split g t = p :: (ps ++ [q]) := by
  have hcount : 0 < t.count g := count_pos_iff.2 h
  have hlength := length_split g t
  obtain ⟨p, ps, hp⟩ := exists_cons_of_ne_nil (split_ne_nil g t)
  have hps : ps ≠ [] := by
    rintro rfl
    rw [hp, length_singleton] at hlength
    omega
  exact ⟨p, ps.dropLast, ps.getLast hps, by rw [hp, dropLast_concat_getLast]⟩

theorem dropEnding_subset (t s : Text) : t.dropEnding s ⊆ t := by
  unfold dropEnding
  split
  · exact take_subset _ _
  · exact List.Subset.refl t

/-- What stands at the ends of the parts stands at the ends of the whole. -/
theorem join_ends (sep a p q b : Text) (ps : List Text) :
    join sep ((a ++ p) :: (ps ++ [q ++ b])) = a ++ join sep (p :: (ps ++ [q])) ++ b := by
  induction ps generalizing a p with
  | nil => simp [join, intercalate_cons_cons]
  | cons r ps ih =>
    have h := ih [] r
    simp only [join, List.nil_append] at h
    simp [join, intercalate_cons_cons, h]

end Text

namespace Generate

variable {t u body : Text}

theorem trimEnd_eq (t : Text) : trimEnd t = t.rdropWhile (·.isChar isBlank) := rfl

/-- Blanks are cut off the end only. -/
theorem trimEnd_append (h : trimEnd t = t) (u : Text) : trimEnd (t ++ u) = t ++ trimEnd u := by
  have hrev : t.reverse.dropWhile (·.isChar isBlank) = t.reverse := by
    have h := congrArg List.reverse h
    simpa [trimEnd, dropEndWhile] using h
  simp only [trimEnd, dropEndWhile, reverse_append, List.dropWhile_append, hrev]
  split
  · next hempty => simp_all
  · simp

theorem trimEnd_isInfix (t : Text) : trimEnd t <:+: t :=
  ( rdropWhile_prefix _ _).isInfix

/-! ### Texts that may stand in a block -/

/-- Every glyph may stand in a file, and no slash follows a star. -/
structure IsBlockText (t : Text) : Prop where
  source : ∀ g ∈ t, isSourceGlyph g = true
  unclosed : t.IsChain fun g h => ¬(g = .char '*' ∧ h = .char '/')

/-- Part of what may stand in a block may. -/
theorem IsBlockText.part (h : IsBlockText t) (hu : u <:+: t) : IsBlockText u :=
  ⟨fun g hg => h.source g (hu.subset hg), List.IsChain.infix h.unclosed hu⟩

theorem IsBlockText.nil : IsBlockText [] := ⟨nofun, .nil⟩

/-- Lines that may stand in a block make a text that may. -/
theorem IsBlockText.join {ls : List Text} (h : ∀ l ∈ ls, IsBlockText l) : IsBlockText (Text.join "\n" ls) := by
  induction ls with
  | nil => exact .nil
  | cons l ls ih =>
    obtain ⟨hl, hls⟩ := forall_mem_cons.1 h
    cases ls with
    | nil =>
      rw [Text.join, intercalate_singleton]
      exact hl
    | cons m ls =>
      obtain ⟨hsource, hunclosed⟩ := ih hls
      have hbreak : IsBlockText (("\n" : Text) ++ Text.join "\n" (m :: ls)) := by
        refine ⟨?_, hunclosed.cons fun b _ h => absurd h.1 (by decide)⟩
        exact forall_mem_cons.2 ⟨rfl, hsource⟩
      rw [Text.join, intercalate_cons_cons, append_assoc]
      refine ⟨forall_mem_append.2 ⟨hl.source, hbreak.source⟩, ?_⟩
      refine hl.unclosed.append hbreak.unclosed fun a _ b hb => ?_
      obtain rfl : Glyph.char '\n' = b := Option.some.inj hb
      simp

theorem dropBlockReturns_sublist (star : Bool) (t : Text) : (dropBlockReturns star t).Sublist t := by
  induction t generalizing star with
  | nil => exact .slnil
  | cons g t ih =>
    rw [dropBlockReturns]
    split
    · exact .cons _ (ih star)
    · exact .cons_cons _ (ih _)

variable {a : Glyph} {c : Text} {isBlock due : Bool} {ts : List Token}

/-- A carriage return between a star and a slash stays, so that the star and the slash do not meet. -/
theorem isChain_dropBlockReturns (h : (a :: t).IsChain fun g h => ¬(g = .char '*' ∧ h = .char '/')) :
    (a :: dropBlockReturns (a = .char '*') t).IsChain fun g h => ¬(g = .char '*' ∧ h = .char '/') := by
  induction t generalizing a with
  | nil => exact h
  | cons g t ih =>
    obtain ⟨hag, ht⟩ := isChain_cons_cons.1 h
    rw [dropBlockReturns]
    split
    · next hdrop =>
      refine ih (ht.tail.cons fun b hb => ?_)
      rintro ⟨rfl, rfl⟩
      exact hdrop.2 ⟨by simp, hb⟩
    · exact isChain_cons_cons.2 ⟨hag, ih ht⟩

theorem IsBlockText.dropBlockReturns (h : IsBlockText t) : IsBlockText (dropBlockReturns false t) := by
  have hchain := isChain_dropBlockReturns (a := .char '\n') (h.unclosed.cons fun b _ => by simp)
  exact ⟨fun g hg => h.source g ((dropBlockReturns_sublist false t).subset hg), hchain.tail⟩

/-- What stands before the first end of a block may stand in one. -/
theorem blockRest?_eq_some {b rest : Text} (h : blockRest? t = some (b, rest)) :
    t = b ++ ("*/" ++ rest) ∧ b.IsChain fun g h => ¬(g = .char '*' ∧ h = .char '/') := by
  fun_induction blockRest? t generalizing b with
  | case1 => cases h
  | case2 =>
    cases h
    exact ⟨rfl, .nil⟩
  | case3 g t hopen ih =>
    obtain ⟨⟨b, r⟩, hb, h⟩ := Option.map_eq_some_iff.1 h
    cases h
    obtain ⟨rfl, hchain⟩ := ih hb
    refine ⟨rfl, hchain.cons fun c hc => ?_⟩
    rintro ⟨rfl, rfl⟩
    obtain ⟨b, rfl⟩ := List.head?_eq_some_iff.1 hc
    exact hopen _ rfl rfl

/-- Where no block ends, no slash follows a star. -/
theorem isChain_of_blockRest? (h : blockRest? t = none) : t.IsChain fun g h => ¬(g = .char '*' ∧ h = .char '/') := by
  fun_induction blockRest? t with
  | case1 => exact .nil
  | case2 => cases h
  | case3 g t hopen ih =>
    refine (ih (Option.map_eq_none_iff.1 h)).cons fun c hc => ?_
    rintro ⟨rfl, rfl⟩
    obtain ⟨b, rfl⟩ := List.head?_eq_some_iff.1 hc
    exact hopen _ rfl rfl

/-! ### Blocks -/

theorem sharedMargin_isPrefix (s t : Text) : sharedMargin s t <+: s ∧ sharedMargin s t <+: t := by
  fun_induction sharedMargin s t with
  | case1 g s h t heq ih => exact ⟨cons_prefix_cons.2 ⟨rfl, ih.1⟩, cons_prefix_cons.2 ⟨heq.1, ih.2⟩⟩
  | case2 | case3 => exact ⟨ nil_prefix, nil_prefix⟩

/-- The outer margin is part of the margin. -/
theorem outerMargin_subset (first margin : Text) : outerMargin first margin ⊆ margin := by
  simp only [outerMargin]
  split
  · split
    · exact margin.dropEnding_subset _
    · exact take_subset _ _
  · exact margin.dropEnding_subset _

/-- The end of a block is not part of a margin without stars. -/
theorem drop_sharedMargin {outer : Text} (h : Glyph.char '*' ∉ outer) (l : Text) :
    ∃ m, m <:+: l ∧ (l ++ "*/").drop (sharedMargin outer (l ++ "*/")).length = m ++ "*/" := by
  obtain ⟨houter, hlast⟩ := sharedMargin_isPrefix outer (l ++ "*/")
  have hlength : (sharedMargin outer (l ++ "*/")).length ≤ l.length := by
    by_contra! hlt
    have hstar : (l ++ [Glyph.char '*']) <+: sharedMargin outer (l ++ "*/") := by
      refine prefix_of_prefix_length_le ?_ hlast ?_
      · exact (prefix_append_right_inj l).2 ⟨[.char '/'], rfl⟩
      · rw [length_append]
        exact hlt
    exact h (houter.subset (hstar.subset (by simp)))
  refine ⟨_, (drop_suffix _ l).isInfix, drop_append_of_le_length hlength⟩

/-- The lines of a block are put in place without new glyphs but one blank, and its end stays its end. -/
theorem exists_alignLines_eq (first : Text) (inner : List Text) (l margin : Text) : ∃ (inner' : List Text) (m : Text),
      alignLines first inner (l ++ "*/") margin = inner' ++ [m ++ "*/"] ∧
        (∀ k ∈ inner', ∃ k' ∈ inner, k <:+: k') ∧ (m <:+: l ∨ m = " ") := by
  -- a line of blanks becomes empty, and any other stays as it is
  have hinner : ∀ n, ∀ k ∈ (inner.map fun l => if l.all isMarginBlank then [] else l).map (List.drop n),
      ∃ k' ∈ inner, k <:+: k' := by
    intro n k hk
    simp only [mem_map, exists_exists_and_eq_and] at hk
    obtain ⟨k', hk', rfl⟩ := hk
    refine ⟨k', hk', ?_⟩
    split
    · simp
    · exact (drop_suffix n k').isInfix
  have houter : Glyph.char '*' ∉
      if margin.contains (.char '*') then Text.dropEnding (margin.takeWhile (· ≠ .char '*')) " "
      else outerMargin first margin := by
    split
    · intro h
      have hkept := mem_takeWhile_imp (dropEnding_subset _ _ h)
      simp at hkept
    · next hstars => exact fun h => hstars (by simpa using outerMargin_subset first margin h)
  simp only [alignLines]
  split
  · split
    · exact ⟨_, " ", rfl, hinner _, .inr rfl⟩
    · exact ⟨_, [], rfl, hinner _, .inl nil_infix⟩
  · obtain ⟨m, hm, hdrop⟩ := drop_sharedMargin houter l
    rw [map_append, map_singleton, hdrop]
    exact ⟨_, m, rfl, hinner _, .inl hm⟩

theorem blockComment_eq {first last : Text} {inner : List Text}
    (h : ("/*" ++ dropBlockReturns false body ++ "*/" : Text).split '\n' = first :: (inner ++ [last])) :
    blockComment body = Text.join "\n"
      ((first :: alignLines first inner last (commonMargin inner last)).map trimEnd) := by
  have hinner : (inner ++ [last]).dropLast = inner := dropLast_concat
  have hlast : (inner ++ [last]).getLastD [] = last := by simp
  obtain ⟨r, rs, hrest⟩ : ∃ r rs, inner ++ [last] = r :: rs := exists_cons_of_ne_nil (by simp)
  rw [hrest] at h hinner hlast
  simp only [blockComment, h, hinner, hlast]

/-- **A block is closed where it ends and not before.** -/
theorem exists_blockComment_eq (h : IsBlockText body) : ∃ b, blockComment body = "/*" ++ b ++ "*/" ∧ IsBlockText b := by
  have hopen : Glyph.char '\n' ∉ ("/*" : Text) := by decide
  have hclose : Glyph.char '\n' ∉ ("*/" : Text) := by decide
  have hkept := h.dropBlockReturns
  generalize hx : dropBlockReturns false body = x at hkept
  by_cases hbreak : Glyph.char '\n' ∈ x
  · obtain ⟨p, ps, q, hsplit⟩ := exists_split_of_mem hbreak
    have hpart : ∀ l ∈ p :: (ps ++ [q]), IsBlockText l := fun l hl =>
      hkept.part (isInfix_of_mem_split (hsplit ▸ hl))
    have hlines : (("/*" ++ x ++ "*/" : Text)).split '\n' = ("/*" ++ p) :: (ps ++ [q ++ "*/"]) := by
      rw [split_append_right hclose, split_append_left hopen hsplit, ← cons_append,
        dropLast_concat, getLastD_concat]
      rfl
    obtain ⟨inner, m, hlines', hinner, hm⟩ := exists_alignLines_eq ("/*" ++ p) ps q (commonMargin ps (q ++ "*/"))
    have hfirst : trimEnd ("/*" ++ p) = "/*" ++ trimEnd p := trimEnd_append (by decide) p
    have hlast : trimEnd (m ++ "*/") = m ++ "*/" := by
      have hend : (m ++ "*/" : Text) = (m ++ [.char '*']) ++ [.char '/'] := by
        rw [append_assoc]
        rfl
      rw [hend, trimEnd_eq, rdropWhile_concat_neg _ _ _ (by decide)]
    refine ⟨Text.join "\n" (trimEnd p :: (inner.map trimEnd ++ [m])), ?_, .join ?_⟩
    · rw [blockComment_eq (hx ▸ hlines), hlines', map_cons, map_append, map_singleton,
        hfirst, hlast, join_ends]
    · simp only [forall_mem_cons, forall_mem_append, mem_singleton, forall_eq,
        forall_mem_map] at hpart ⊢
      obtain ⟨hp, hps, hq⟩ := hpart
      refine ⟨hp.part (trimEnd_isInfix p), fun k hk => ?_, ?_⟩
      · obtain ⟨k', hk', hpart⟩ := hinner k hk
        exact ((hps k' hk').part hpart).part (trimEnd_isInfix k)
      · rcases hm with hm | rfl
        · exact hq.part hm
        · exact ⟨by decide, .singleton _⟩
  · have hwhole : Glyph.char '\n' ∉ ("/*" ++ x ++ "*/" : Text) := by
      simp [hopen, hclose, hbreak]
    refine ⟨x, ?_, hkept⟩
    simp only [blockComment, hx, split_of_not_mem hwhole]

/-! ### Comments -/

/-- A comment that may stand in a file: a line without its end, or a block. -/
inductive IsComment : (isBlock : Bool) → Text → Prop where
  | line {y : Text} (hsource : ∀ g ∈ y, isSourceGlyph g = true) (hbreak : Glyph.char '\n' ∉ y) :
    IsComment false ("//" ++ y)
  | block {b : Text} (h : IsBlockText b) : IsComment true ("/*" ++ b ++ "*/")

theorem isComment_lineComment (hsource : ∀ g ∈ t, isSourceGlyph g = true)
    (hbreak : Glyph.char '\n' ∉ t) : IsComment false (lineComment t) := by
  have hsubset : trimEnd (dropReturns t) ⊆ t := fun g hg =>
    mem_of_mem_filter ((trimEnd_isInfix _).subset hg)
  rw [lineComment, trimEnd_append (by decide)]
  exact .line (fun g hg => hsource g (hsubset hg)) fun h => hbreak (hsubset h)

theorem isComment_blockComment (h : IsBlockText t) : IsComment true (blockComment t) := by
  obtain ⟨b, hb, hblock⟩ := exists_blockComment_eq h
  rw [hb]
  exact .block hblock

/-- **A header is a comment.** -/
theorem isComment_of_headerComment? (h : headerComment? t = some c) : ∃ isBlock, IsComment isBlock c := by
  unfold headerComment? at h
  split at h
  · cases h
  next hsource =>
  have hsource : ∀ g ∈ t, isSourceGlyph g = true := by simpa using hsource
  split at h
  · next hbreak =>
    cases h
    refine ⟨false, isComment_lineComment (forall_mem_append.2 ⟨by decide, hsource⟩) ?_⟩
    exact fun h => hbreak ((mem_append.1 h).resolve_left (by decide))
  split at h
  · cases h
  · next hopen =>
    cases h
    have hblock : IsBlockText t := ⟨hsource, isChain_of_blockRest? (by simpa using hopen)⟩
    have hlines : IsBlockText (Text.join "\n" [[], t, []]) := .join (by simp [hblock, IsBlockText.nil])
    refine ⟨true, isComment_blockComment ?_⟩
    simpa [Text.join, intercalate_cons_cons] using hlines

theorem IsComment.source (h : IsComment isBlock c) : ∀ g ∈ c, isSourceGlyph g = true := by
  cases h with
  | line hsource => exact forall_mem_append.2 ⟨by decide, hsource⟩
  | @block b h =>
    have hopen : ∀ g ∈ ("/*" ++ b : Text), isSourceGlyph g = true := forall_mem_append.2 ⟨by decide, h.source⟩
    exact forall_mem_append.2 ⟨hopen, by decide⟩

/-! ### Reading comments -/

/-- What is due before some tokens is due after them, unless it is among them. -/
def Passes (due : Bool) (ts : List Token) (due' : Bool) : Prop := ts ++ stopIf due' = stopIf due

theorem Passes.refl (due : Bool) : Passes due [] due := rfl

theorem Passes.trans {due' due'' : Bool} {us : List Token} (h : Passes due ts due') (h' : Passes due' us due'') :
    Passes due (ts ++ us) due'' := by
  unfold Passes at *
  rw [append_assoc, h', h]

/-- If nothing is due, nothing comes. -/
theorem Passes.eq_nil (h : Passes false ts due) : ts = [] ∧ due = false := by
  obtain ⟨hts, hdue⟩ := append_eq_nil_iff.1 h
  cases due with
  | false => exact ⟨hts, rfl⟩
  | true => cases hdue

/-- Behind a comment. -/
def Scan.behind (isBlock due : Bool) : Scan := if isBlock then .gap due else .line due

theorem scans_break (isBlock due : Bool) : Scans (.behind isBlock due) "\n" (stopIf due) (.gap false) := by
  cases isBlock <;> cases due <;> decide

theorem scans_line (h : Glyph.char '\n' ∉ t) (due : Bool) : Scans (.line due) t [] (.line due) := by
  induction t with
  | nil => exact .nil _
  | cons g t ih =>
    have hg : g ≠ .char '\n' := fun hg => h (hg ▸ mem_cons_self)
    exact .skip (if_neg hg) (ih fun ht => h (mem_cons_of_mem _ ht))

/-- A text in which no slash follows a star stays inside of a block. -/
theorem scans_block (h : (a :: t).IsChain fun g h => ¬(g = .char '*' ∧ h = .char '/')) (due broken : Bool) :
    ∃ broken' star', Scans (.block due broken (a = .char '*')) t [] (.block due broken' star') := by
  induction t generalizing a broken with
  | nil => exact ⟨_, _, .nil _⟩
  | cons g t ih =>
    obtain ⟨hag, ht⟩ := isChain_cons_cons.1 h
    obtain ⟨broken', star', hscans⟩ := ih ht (broken || g = .char '\n')
    have hstep : ¬(decide (a = .char '*') = true ∧ g = .char '/') := by simpa using hag
    exact ⟨broken', star', .skip (if_neg hstep) hscans⟩

theorem scans_blockEnd (due broken star : Bool) :
    ∃ ts due', Scans (.block due broken star) "*/" ts (.gap due') ∧ Passes due ts due' := by
  cases broken with
  | false => exact ⟨[], due, by cases due <;> cases star <;> decide, .refl due⟩
  | true => exact ⟨stopIf due, false, by cases due <;> cases star <;> decide, by simp [Passes, stopIf]⟩

/-- **A comment has no tokens, but a statement that is to end with the line may end in it.** -/
theorem IsComment.scans (h : IsComment isBlock c) (due : Bool) :
    ∃ ts due', Scans (.gap due) c ts (.behind isBlock due') ∧ Passes due ts due' := by
  cases h with
  | line hsource hbreak =>
    have hopen : Scans (.gap due) "//" [] (.line due) := by cases due <;> decide
    exact ⟨[], due, hopen.append (scans_line hbreak due), .refl due⟩
  | @block b hb =>
    have hopen : Scans (.gap due) "/*" [] (.block due false false) := by cases due <;> decide
    obtain ⟨broken, star, hinside⟩ :=
      scans_block (a := .char '\n') (hb.unclosed.cons fun b _ h => absurd h.1 (by decide)) due false
    obtain ⟨ts, due', hclose, hpasses⟩ := scans_blockEnd due broken star
    exact ⟨ts, due', (hopen.append_nil hinside).nil_append hclose, hpasses⟩

/-- A comment on lines of its own says nothing. -/
theorem IsComment.says_nil (h : IsComment isBlock c) : Says (c ++ "\n") [] := by
  obtain ⟨ts, due, hscans, hpasses⟩ := h.scans false
  obtain ⟨rfl, rfl⟩ := hpasses.eq_nil
  exact ⟨hscans.append (scans_break isBlock false), forall_mem_append.2 ⟨h.source, by decide⟩⟩

end Generate
end RegexBuilder
