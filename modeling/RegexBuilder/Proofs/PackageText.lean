/-
# Package clauses are read as they are meant

The blanks and comments of a package are moved when the clause is written. The reader still finds the word `package`,
the name and the end of the clause, and nothing else (`PackageClause.WellPlaced.says_clause`): after a comment that
goes to the end of its line the next one, or the name, is written behind a line break (`leadsTo_of_comments?`).
-/

import RegexBuilder.Proofs.CommentText
import RegexBuilder.Proofs.Lists

namespace RegexBuilder.Generate

open List Option

/-! ### Places of comments -/

/-- The comments stand one behind the other, from something that ends on the line `line` to something that ends on the
line `line'`. One that is not closed goes to the end of its line. -/
inductive Placed : (closed : Bool) → (line : Nat) → List PlacedComment → (closed' : Bool) →
    (line' : Nat) → Prop where
  | nil {closed : Bool} {line : Nat} : Placed closed line [] closed line
  | cons {closed closed' : Bool} {line line' : Nat} {c : PlacedComment} {cs : List PlacedComment}
    (hline : line ≤ c.first)
    (hclosed : closed = false → line < c.first) (hc : IsComment c.isBlock c.text)
    (h : Placed c.isBlock c.last cs closed' line') : Placed closed line (c :: cs) closed' line'

variable {t : Text} {cs : List PlacedComment} {closed closed' : Bool} {line line' : Nat}

/-- Comments may be placed behind each other. -/
theorem Placed.append {closed'' : Bool} {line'' : Nat} {ds : List PlacedComment}
    (h : Placed closed line cs closed' line') (h' : Placed closed' line' ds closed'' line'') :
    Placed closed line (cs ++ ds) closed'' line'' := by
  induction h with
  | nil => exact h'
  | cons hline hclosed hc _ ih => exact .cons hline hclosed hc (ih h')

/-- The end of the comments is that of the last one. -/
theorem Placed.getLast? (h : Placed closed line cs closed' line') : (cs = [] ∧ closed' = closed ∧ line' = line) ∨
      ∃ c, cs.getLast? = some c ∧ closed' = c.isBlock ∧ line' = c.last := by
  induction h with
  | nil => exact .inl ⟨rfl, rfl, rfl⟩
  | @cons _ _ _ _ c cs _ _ _ _ ih =>
    rcases ih with ⟨rfl, rfl, rfl⟩ | ⟨d, hd, rfl, rfl⟩
    · exact .inr ⟨c, rfl, rfl, rfl⟩
    · exact .inr ⟨d, by rw [getLast?_cons, hd]; rfl, rfl, rfl⟩

/-- The comments stand between something that ends on the line `line` and the text `rest` on the line
`l`. -/
def LeadsTo (closed : Bool) (line : Nat) (cs : List PlacedComment) (l : Nat) (rest : Text) : Prop :=
  ∃ closed' line', Placed closed line cs closed' line' ∧ line' ≤ l ∧
    (closed' = false → rest = [] ∨ line' < l)

/-- Comments from a later place on. -/
theorem LeadsTo.later {l : Nat} {rest : Text} (h : LeadsTo true line' cs l rest) (hline : line ≤ line')
    (hclosed : closed = false → line < line') : LeadsTo closed line cs l rest := by
  obtain ⟨closed', line'', hplaced, hend, hclosed'⟩ := h
  cases hplaced with
  | nil => exact ⟨closed, line, .nil, by omega, fun h => .inr (by have := hclosed h; omega)⟩
  | cons hfirst _ hc h =>
    refine ⟨closed', line'', .cons (by omega) (fun h => ?_) hc h, hend, hclosed'⟩
    have := hclosed h
    omega

/-- The comments at the front of a text lead to the rest of it. Behind a comment that is not closed the
text is empty or begins with a line break. -/
theorem leadsTo_of_comments? {fuel l : Nat} {rest : Text} (closed : Bool)
    (h : comments? fuel line t = some (cs, l, rest)) (hfuel : t.length ≤ fuel)
    (hsource : ∀ g ∈ t, isSourceGlyph g = true) (hclosed : closed = false → ∀ g ∈ t.head?, g = .char '\n') :
    LeadsTo closed line cs l rest ∧ rest <:+ t := by
  fun_induction comments? fuel line t generalizing cs l rest closed with
  | case1 line t =>
    cases h
    obtain rfl := length_eq_zero_iff.1 (Nat.le_zero.1 hfuel)
    exact ⟨⟨closed, line, .nil, le_rfl, fun _ => .inl rfl⟩, suffix_rfl⟩
  | case2 fuel line =>
    cases h
    exact ⟨⟨closed, line, .nil, le_rfl, fun _ => .inl rfl⟩, suffix_rfl⟩
  | case3 fuel line t body =>
    rename_i ih
    obtain ⟨⟨cs, l, rest⟩, hrest, h⟩ := map_eq_some_iff.1 h
    cases h
    have hdrop : t.drop body.length = t.dropWhile (· ≠ .char '\n') := drop_length_takeWhile _ t
    have hhead : ∀ g ∈ (t.drop body.length).head?, g = .char '\n' := by
      intro g hg
      have hnot := head?_dropWhile_not (· ≠ Glyph.char '\n') t
      rw [← hdrop, hg] at hnot
      simpa using hnot
    have hsuffix : t.drop body.length <:+ .char '/' :: .char '/' :: t :=
      (drop_suffix _ t).trans ⟨[.char '/', .char '/'], rfl⟩
    have hlength : (t.drop body.length).length ≤ fuel := by
      simp only [length_drop, length_cons] at hfuel ⊢
      omega
    obtain ⟨⟨closed', line', hplaced, hend⟩, hrest⟩ := ih false hrest hlength
      (fun g hg => hsource g (hsuffix.subset hg)) fun _ => hhead
    have hcomment : IsComment false (lineComment body) := by
      refine isComment_lineComment (fun g hg => hsource g ?_) fun h => ?_
      · exact mem_cons_of_mem _ (mem_cons_of_mem _ (takeWhile_subset _ hg))
      · simpa using mem_takeWhile_imp h
    refine ⟨⟨closed', line', .cons le_rfl (fun h => ?_) hcomment hplaced, hend⟩, hrest.trans hsuffix⟩
    simpa using hclosed h
  | case4 fuel line t ih =>
    obtain ⟨⟨body, t'⟩, hbody, h⟩ := bind_eq_some_iff.1 h
    obtain ⟨⟨cs, l, rest⟩, hrest, h⟩ := bind_eq_some_iff.1 h
    cases h
    obtain ⟨rfl, hopen⟩ := blockRest?_eq_some hbody
    have hsuffix : t' <:+ .char '/' :: .char '*' :: (body ++ ("*/" ++ t')) :=
      ⟨.char '/' :: .char '*' :: (body ++ "*/"), by simp⟩
    have hlength : t'.length ≤ fuel := by
      simp only [length_append, length_cons] at hfuel
      omega
    obtain ⟨⟨closed', line', hplaced, hend⟩, hrest⟩ := ih body t' true hrest hlength
      (fun g hg => hsource g (hsuffix.subset hg)) nofun
    have hcomment : IsComment true (blockComment body) :=
      isComment_blockComment ⟨fun g hg => hsource g (by simp [hg]), hopen⟩
    refine ⟨⟨closed', line', .cons le_rfl (fun h => ?_) hcomment hplaced, hend⟩, hrest.trans hsuffix⟩
    simpa using hclosed h
  | case5 fuel line t _ _ ih =>
    obtain ⟨hleads, hrest⟩ := ih true h (Nat.le_of_succ_le_succ hfuel)
      (fun g hg => hsource g (mem_cons_of_mem _ hg)) nofun
    exact ⟨hleads.later (by omega) (by omega), hrest.trans (suffix_cons _ _)⟩
  | case6 fuel line g t _ _ hbreak _ ih =>
    obtain rfl : closed = true := by simpa [hbreak] using hclosed
    obtain ⟨hleads, hrest⟩ := ih true h (Nat.le_of_succ_le_succ hfuel)
      (fun g hg => hsource g (mem_cons_of_mem _ hg)) nofun
    exact ⟨hleads, hrest.trans (suffix_cons _ _)⟩
  | case7 fuel line g t _ _ hbreak =>
    cases h
    obtain rfl : closed = true := by simpa [hbreak] using hclosed
    exact ⟨⟨true, line, .nil, le_rfl, nofun⟩, suffix_rfl⟩

/-! ### Written comments -/

namespace PackageClause

variable {n : Nat} {c : PackageClause}

theorem scans_breaks (hn : 0 < n) (closed due : Bool) :
    Scans (.behind closed due) (breaks n) (stopIf due) (.gap false) := by
  have hfirst := scans_break closed due
  rcases Nat.lt_or_ge n 2 with h | h
  · obtain rfl : n = 1 := by omega
    exact hfirst
  · have hbreaks : breaks n = "\n" ++ "\n" := by
      rw [breaks, Nat.min_eq_right h]
      rfl
    rw [hbreaks]
    exact hfirst.append_nil (scans_break true false)

/-- Comments have no tokens, but a statement that is to end with the line may end between them. -/
theorem scans_commentsText (h : Placed closed line cs closed' line') (extra : Nat) (due : Bool) :
    ∃ ts due', Scans (.behind closed due) (commentsText extra line cs) ts (.behind closed' due') ∧
      Passes due ts due' := by
  induction h generalizing extra due with
  | nil => exact ⟨[], due, .nil _, .refl due⟩
  | @cons closed closed' line line' c cs hline hclosed hc _ ih =>
    obtain ⟨ts, due₁, hseparator, hts⟩ : ∃ ts due₁, Scans (.behind closed due)
          (if c.first = line then Text.ofString " " else breaks (c.first - line + extra)) ts (.gap due₁) ∧
          Passes due ts due₁ := by
      split
      · next hsame =>
        obtain rfl : closed = true := by
          by_contra hopen
          have := hclosed (by simpa using hopen)
          omega
        exact ⟨[], due, by cases due <;> decide, .refl due⟩
      · exact ⟨stopIf due, false, scans_breaks (by omega) closed due, List.append_nil _⟩
    obtain ⟨us, due₂, hcomment, hus⟩ := hc.scans due₁
    obtain ⟨vs, due₃, hrest, hvs⟩ := ih 0 due₂
    exact ⟨ts ++ us ++ vs, due₃, (hseparator.append hcomment).append hrest, (hts.trans hus).trans hvs⟩

theorem source_breaks (n : Nat) : ∀ g ∈ breaks n, isSourceGlyph g = true := by
  intro g hg
  obtain rfl := eq_of_mem_replicate hg
  rfl

theorem source_commentsText (h : Placed closed line cs closed' line') (extra : Nat) :
    ∀ g ∈ commentsText extra line cs, isSourceGlyph g = true := by
  induction h generalizing extra with
  | nil => nofun
  | cons _ _ hc _ ih =>
    refine forall_mem_append.2 ⟨forall_mem_append.2 ⟨?_, hc.source⟩, ih 0⟩
    split
    · decide
    · exact source_breaks _

/-! ### Clauses -/

/-- The name is one, and the comments around it stand where they leave it alone. -/
structure WellPlaced (c : PackageClause) : Prop where
  name : isName c.name = true
  source : ∀ g ∈ c.name, isSourceGlyph g = true
  before : LeadsTo true 0 c.before c.line c.name
  after : ∃ closed line, Placed true c.line c.after closed line

theorem placed_of_commentsToEnd? (h : commentsToEnd? line t = some cs)
    (hsource : ∀ g ∈ t, isSourceGlyph g = true) : ∃ closed line', Placed true line cs closed line' := by
  obtain ⟨⟨ds, l, rest⟩, hcomments, h⟩ := bind_eq_some_iff.1 h
  obtain ⟨⟨closed, line', hplaced, hline, hclosed⟩, hrest⟩ := leadsTo_of_comments? true hcomments le_rfl hsource nofun
  cases rest with
  | nil =>
    cases h
    exact ⟨closed, line', hplaced⟩
  | cons g rest =>
    dsimp only at h
    split at h
    · next hsemicolon =>
      obtain ⟨-, rfl⟩ := hsemicolon
      obtain ⟨⟨more, l', rest'⟩, hmore, h⟩ := bind_eq_some_iff.1 h
      dsimp only at h
      split at h
      · cases h
        -- what follows the semicolon is still on the line of the name
        have hrest := fun g hg => hsource g (hrest.subset (mem_cons_of_mem _ hg))
        obtain ⟨hleads, -⟩ := leadsTo_of_comments? true hmore le_rfl hrest nofun
        obtain ⟨closed', line'', hmore, -⟩ :=
          hleads.later hline fun h => (hclosed h).resolve_left (cons_ne_nil _ _)
        exact ⟨closed', line'', hplaced.append hmore⟩
      · cases h
    · cases h

theorem wellPlaced_of_read? (h : read? t = some c) : c.WellPlaced := by
  unfold read? at h
  split at h
  · cases h
  · next hsource =>
    have hsource : ∀ g ∈ t, isSourceGlyph g = true := by simpa using hsource
    obtain ⟨⟨before, line, rest⟩, hbefore, h⟩ := bind_eq_some_iff.1 h
    obtain ⟨⟨closed, line', hplaced, hline, hclosed⟩, hrest⟩ := leadsTo_of_comments? true hbefore le_rfl hsource nofun
    have hrest := fun g hg => hsource g (hrest.subset hg)
    dsimp only at h
    split at h
    · cases h
    · next hname =>
      obtain ⟨after, hafter, h⟩ := bind_eq_some_iff.1 h
      cases h
      have hname : isName (rest.takeWhile isNamePart) = true := by simpa using hname
      refine ⟨hname, fun g hg => hrest g (takeWhile_subset _ hg), ?_, ?_⟩
      · refine ⟨closed, line', hplaced, hline, fun h => (hclosed h).imp_left ?_⟩
        rintro rfl
        rfl
      · exact placed_of_commentsToEnd? hafter fun g hg => hrest g (drop_subset _ _ hg)

theorem endsWord_breaks (hn : 0 < n) : endsWord (breaks n) = true := by
  obtain ⟨k, hk⟩ : ∃ k, min n 2 = k + 1 := ⟨min n 2 - 1, by omega⟩
  rw [breaks, hk]
  exact endsWord_cons (by decide) _

theorem endsWord_commentsText (h : Placed closed line cs closed' line') (extra : Nat) {u : Text}
    (hu : cs = [] → endsWord u = true) : endsWord (commentsText extra line cs ++ u) = true := by
  cases h with
  | nil => exact hu rfl
  | cons =>
    refine endsWord_append (endsWord_append (endsWord_append ?_ _) _) u
    split
    · exact endsWord_cons (by decide) _
    · exact endsWord_breaks (by omega)

/-- What stands before the name is ended where that is needed. -/
theorem scans_nameSeparator (h : Placed true 0 c.before closed line) (hline : line ≤ c.line)
    (hclosed : closed = false → line < c.line) : Scans (.behind closed false) c.nameSeparator [] (.gap false) := by
  have hblank : Scans (.gap false) " " [] (.gap false) := by decide
  rcases h.getLast? with ⟨hbefore, rfl, rfl⟩ | ⟨b, hlast, rfl, rfl⟩
  · simp only [nameSeparator, hbefore, getLast?_nil]
    split
    · exact hblank
    · exact scans_breaks (by omega) true false
  · simp only [nameSeparator, hlast]
    split
    · next hsame =>
      rw [(Bool.and_eq_true_iff.1 hsame).1]
      exact hblank
    · rcases Nat.eq_or_lt_of_le hline with heq | hlt
      · have hblock : b.isBlock = true := by
          by_contra hopen
          have := hclosed (by simpa using hopen)
          omega
        rw [heq, Nat.sub_self, hblock]
        exact .nil _
      · exact scans_breaks (by omega) b.isBlock false

theorem endsWord_nameSeparator (h : c.before = []) : endsWord c.nameSeparator = true := by
  simp only [nameSeparator, h, getLast?_nil]
  split
  · exact endsWord_cons (by decide) _
  · exact endsWord_breaks (by omega)

theorem WellPlaced.source_text (h : c.WellPlaced) : ∀ g ∈ c.text, isSourceGlyph g = true := by
  obtain ⟨closed, line, hbefore, -⟩ := h.before
  obtain ⟨closed', line', hafter⟩ := h.after
  have hseparator : ∀ g ∈ c.nameSeparator, isSourceGlyph g = true := by
    unfold nameSeparator
    split
    · split
      · decide
      · exact source_breaks _
    · split
      · decide
      · exact source_breaks _
  have hfront : ∀ g ∈ ("package" ++ commentsText 0 0 c.before : Text), isSourceGlyph g = true :=
    forall_mem_append.2 ⟨by decide, source_commentsText hbefore 0⟩
  simp only [text, forall_mem_append]
  exact ⟨⟨⟨forall_mem_append.1 hfront, hseparator⟩, h.source⟩, source_commentsText hafter 1⟩

/-- **A package clause has the word `package`, the name and an end.** -/
theorem WellPlaced.says_clause (h : c.WellPlaced) : Says (c.text ++ "\n") [.word "package", .word c.name, .stop] := by
  refine ⟨?_, forall_mem_append.2 ⟨h.source_text, by decide⟩⟩
  obtain ⟨closed, line, hbefore, hline, hclosed⟩ := h.before
  obtain ⟨closed', line', hafter⟩ := h.after
  have hname : c.name ≠ [] := by
    intro hempty
    have := h.name
    rw [hempty] at this
    cases this
  -- from the name on
  obtain ⟨ts, due, hend, hpasses⟩ := scans_commentsText hafter 1 true
  have hend : Scans (.gap true) (commentsText 1 c.line c.after ++ "\n") [.stop] (.gap false) := by
    have := hend.append (scans_break closed' due)
    rwa [hpasses] at this
  have hbreak : endsWord "\n" = true := endsWord_cons (by decide) _
  have hrest := Scans.name h.name (endsWord_commentsText hafter 1 fun _ => hbreak) hend false
  -- up to the name, nothing is due
  obtain ⟨us, due', hfront, hpasses⟩ := scans_commentsText hbefore 0 false
  obtain ⟨rfl, rfl⟩ := hpasses.eq_nil
  have hseparator := scans_nameSeparator hbefore hline fun h => (hclosed h).resolve_left hname
  have hfront := (hfront.append_nil hseparator).nil_append hrest
  rw [append_assoc] at hfront
  have hword := Scans.keyword (w := "package") (by decide) (by decide)
    (endsWord_commentsText hbefore 0 fun h => endsWord_append (endsWord_nameSeparator h) _) hfront false
  simp only [text, append_assoc] at hword ⊢
  exact hword

/-- A text that begins with a name begins with no comment. -/
theorem comments?_of_isNameStart {g : Glyph} (hg : isNameStart g = true) (fuel line : Nat) (t : Text) :
    comments? fuel line (g :: t) = some ([], line, g :: t) := by
  cases g with
  | stray => cases hg
  | char c =>
    obtain ⟨hbreak, hspace, htab, hreturn, hslash, -⟩ := ne_of_isNameStart hg
    cases fuel with
    | zero => rfl
    | succ =>
      have hblank : ¬isTokenBlank (.char c) = true := by
        simp [isTokenBlank, Glyph.isChar, hspace, htab, hreturn]
      rw [comments?, if_neg (mt Glyph.char.inj hbreak), if_neg hblank]
      · rintro _ hc -
        exact hslash (Glyph.char.inj hc)
      · rintro _ hc -
        exact hslash (Glyph.char.inj hc)

/-- A name alone makes a clause with nothing around it. -/
theorem read?_of_isName (hname : isName t = true) : read? t = some ⟨[], t, 0, []⟩ := by
  cases t with
  | nil => cases hname
  | cons g t =>
    obtain ⟨hg, ht⟩ := Bool.and_eq_true_iff.1 (isWord_of_isName hname)
    have hparts : ∀ x ∈ g :: t, isNamePart x = true :=
      forall_mem_cons.2 ⟨by simp [isNamePart, hg], all_eq_true.1 ht⟩
    have hsource : (g :: t).all isSourceGlyph = true :=
      all_eq_true.2 fun x hx => (source_of_isNamePart (hparts x hx)).1
    have hwhole := takeWhile_eq_self_iff.2 hparts
    have hnothing : commentsToEnd? 0 [] = some [] := rfl
    unfold read?
    rw [hsource, comments?_of_isNameStart hg]
    simp only [Bool.not_true, Bool.false_eq_true, if_false, bind_eq_bind, bind_some, hwhole, hname,
      drop_length, hnothing]
    rfl

end PackageClause
end RegexBuilder.Generate
