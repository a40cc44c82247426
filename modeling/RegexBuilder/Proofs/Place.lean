/-
# Where a path leads

A path of a tree of files leads to at most one place where a file is or can be (`place?`), and reading and writing go
by the place alone (`read_eq_ok_iff`, `write_eq_ok_iff`). A write makes no directory, so every path leads to the same
place after it as before (`place?_write`), and what is written can be read (`read_of_write`). Paths that differ only
behind their last slash lead to different places (`place?_ne_of_ending`).
-/

import RegexBuilder.Files
import RegexBuilder.Proofs.CommentText
import RegexBuilder.Proofs.Outcome

namespace RegexBuilder.FileTree

open List

variable {d d' : FileTree} {p q r parent : Place} {path content name t : Text} {slash : Bool}

/-! ### Putting a file -/

theorem here_put (d : FileTree) (p : Place) (content : Text) : (d.put p content).here = d.here := by
  unfold put
  split <;> rfl

theorem mem_places_put : q ∈ (d.put p content).files.map Prod.fst ↔
    q = p ∨ q ∈ d.files.map Prod.fst := by
  unfold put
  split
  · next t h =>
    have hplaces : (d.files.map fun f => if f.1 = p then (p, content) else f).map Prod.fst =
        d.files.map Prod.fst := by
      rw [map_map]
      refine map_congr_left fun f _ => ?_
      by_cases hf : f.1 = p <;> simp [hf]
    have hp : p ∈ d.files.map Prod.fst := by
      obtain ⟨before, after, heq, -⟩ := lookup_eq_some_iff.1 h
      simp [heq]
    show q ∈ (d.files.map _).map Prod.fst ↔ _
    rw [hplaces]
    refine ⟨.inr, ?_⟩
    rintro (rfl | hq)
    · exact hp
    · exact hq
  · simp [or_comm]

theorem isDirectory_iff : d.isDirectory p = true ↔
    p <+: d.here ∨ ∃ q ∈ d.files.map Prod.fst, p.length < q.length ∧ p <+: q := by
  simp [isDirectory]

theorem isDirectory_put (h : d.isDirectory q = true) : (d.put p content).isDirectory q = true := by
  rw [isDirectory_iff] at h ⊢
  rw [here_put]
  refine h.imp_right ?_
  rintro ⟨r, hr, hlength⟩
  exact ⟨r, mem_places_put.2 (.inr hr), hlength⟩

/-! ### Following a path -/

/-- The names in a path. -/
def names (path : Text) : List Text := (Path.parts path).filter (· ≠ [])

/-- Where a path starts. -/
def start (d : FileTree) (path : Text) : Place := if Path.isAbsolute path then [] else d.here

theorem target_eq (d : FileTree) (path : Text) : d.target path =
    match pathProblem? path with
    | some problem => .error problem
    | none => (names path).dropLast.foldlM d.enter (d.start path) >>= fun parent =>
      match (names path).getLast? with
      | none => .ok .directory
      | some name =>
        if isDots name then .ok .directory
        else .ok (.named parent name (path.getLast? = some (.char '/'))) := rfl

/-- A path leads to a name in a directory exactly if all names before the last lead to that directory. -/
theorem target_eq_named : d.target path = .ok (.named parent name slash) ↔
      pathProblem? path = none ∧ (names path).dropLast.foldlM d.enter (d.start path) = .ok parent ∧
        (names path).getLast? = some name ∧ isDots name = false ∧
        slash = (path.getLast? = some (.char '/') : Bool) := by
  rw [target_eq]
  cases pathProblem? path with
  | some => exact ⟨nofun, nofun⟩
  | none =>
    simp only [bind_eq_ok, true_and]
    cases (names path).getLast? with
    | none => exact ⟨nofun, nofun⟩
    | some last =>
      dsimp only
      cases hdots : isDots last with
      | true =>
        refine ⟨nofun, ?_⟩
        rintro ⟨-, hlast, hname, -⟩
        cases hlast
        simp [hdots] at hname
      | false =>
        constructor
        · rintro ⟨parent', hparent, h⟩
          cases h
          exact ⟨hparent, rfl, hdots, rfl⟩
        · rintro ⟨hparent, hlast, -, rfl⟩
          cases hlast
          exact ⟨parent, hparent, rfl⟩

theorem read_eq_ok (htarget : d.target path = .ok (.named parent name false)) (hlong : isTooLong name = false)
    (hdirectory : d.isDirectory (parent ++ [name]) = false) (hcontent : d.content? (parent ++ [name]) = some t) :
    d.read path = .ok t := by
  refine bind_eq_ok.2 ⟨_, mapError_eq_ok.2 htarget, ?_⟩
  simp only [hlong, hdirectory, hcontent]
  rfl

theorem write_eq_ok : d.write path content = .ok d' ↔ ∃ parent name,
    d.target path = .ok (.named parent name false) ∧ isTooLong name = false ∧
      d.isDirectory (parent ++ [name]) = false ∧ d' = d.put (parent ++ [name]) content := by
  simp only [write, bind_eq_ok, mapError_eq_ok]
  constructor
  · rintro ⟨target, htarget, h⟩
    cases target with
    | directory => cases h
    | named parent name slash =>
      dsimp only at h
      split at h
      · cases h
      split at h
      · cases h
      · next hfree hlong =>
        cases h
        simp only [Bool.or_eq_true, not_or, Bool.not_eq_true] at hfree hlong
        exact ⟨parent, name, hfree.1 ▸ htarget, hlong, hfree.2, rfl⟩
  · rintro ⟨parent, name, htarget, hlong, hdirectory, rfl⟩
    refine ⟨_, htarget, ?_⟩
    simp [hlong, hdirectory]
    rfl

/-! ### Directories -/

theorem isDirectory_of_prefix (h : d.isDirectory p = true) (hq : q <+: p) : d.isDirectory q = true := by
  rw [isDirectory_iff] at h ⊢
  rcases h with h | ⟨r, hr, hlength, hbelow⟩
  · exact .inl (hq.trans h)
  · exact .inr ⟨r, hr, hq.length_le.trans_lt hlength, hq.trans hbelow⟩

theorem isDirectory_start (d : FileTree) (path : Text) : d.isDirectory (d.start path) = true := by
  rw [isDirectory_iff, start]
  split
  · exact .inl nil_prefix
  · exact .inl (prefix_refl _)

theorem isDirectory_enter (hp : d.isDirectory p = true) (h : d.enter p name = .ok q) : d.isDirectory q = true := by
  unfold enter at h
  split at h
  · cases h
    exact hp
  split at h
  · cases h
    exact isDirectory_of_prefix hp ( dropLast_prefix p)
  split at h
  · cases h
  split at h
  · next hq =>
    cases h
    exact hq
  · split at h <;> cases h

variable {steps : List Text} {front : Text}

theorem isDirectory_foldlM (hp : d.isDirectory p = true) (h : steps.foldlM d.enter p = .ok q) :
    d.isDirectory q = true := by
  induction steps generalizing p with
  | nil =>
    cases h
    exact hp
  | cons name steps ih =>
    rw [foldlM_cons] at h
    obtain ⟨r, hstep, hrest⟩ := bind_eq_ok.1 h
    exact ih (isDirectory_enter hp hstep) hrest

/-- A path names something in a directory. -/
theorem isDirectory_parent (h : d.target path = .ok (.named parent name slash)) :
    d.isDirectory parent = true :=
  isDirectory_foldlM (isDirectory_start d path) (target_eq_named.1 h).2.1

/-- **A file in a directory makes no new directory.** -/
theorem isDirectory_put_of_parent (h : d.isDirectory parent = true) (name content : Text) (q : Place) :
    (d.put (parent ++ [name]) content).isDirectory q = d.isDirectory q := by
  rw [Bool.eq_iff_iff]
  refine ⟨fun hq => ?_, isDirectory_put⟩
  rcases isDirectory_iff.1 hq with hq | ⟨r, hr, hlength, hbelow⟩
  · rw [here_put] at hq
    exact isDirectory_iff.2 (.inl hq)
  rcases mem_places_put.1 hr with rfl | hr
  · -- the new directory would be above the file, and so above or at its directory
    refine isDirectory_of_prefix h ?_
    rcases prefix_concat_iff.1 hbelow with rfl | hparent
    · exact absurd hlength (lt_irrefl _)
    · exact hparent
  · exact isDirectory_iff.2 (.inr ⟨r, hr, hlength, hbelow⟩)

/-! ### Places -/

/-- The place that a path leads to, if a file is or can be there. -/
def place? (d : FileTree) (path : Text) : Option Place :=
  match d.target path with
  | .ok (.named parent name false) =>
    if isTooLong name || d.isDirectory (parent ++ [name]) then none else some (parent ++ [name])
  | _ => none

theorem place?_eq_some : d.place? path = some p ↔ ∃ parent name,
    d.target path = .ok (.named parent name false) ∧ isTooLong name = false ∧
      d.isDirectory (parent ++ [name]) = false ∧ p = parent ++ [name] := by
  unfold place?
  constructor
  · intro h
    split at h
    · next parent name htarget =>
      split at h
      · cases h
      · next hfree =>
        cases h
        simp only [Bool.or_eq_true, not_or, Bool.not_eq_true] at hfree
        exact ⟨parent, name, htarget, hfree.1, hfree.2, rfl⟩
    · cases h
  · rintro ⟨parent, name, htarget, hlong, hdirectory, rfl⟩
    simp [htarget, hlong, hdirectory]

/-- **A path can be written to if it leads to a place.** -/
theorem write_eq_ok_iff : d.write path content = .ok d' ↔ ∃ p, d.place? path = some p ∧ d' = d.put p content := by
  simp only [write_eq_ok, place?_eq_some]
  constructor
  · rintro ⟨parent, name, htarget, hlong, hdirectory, rfl⟩
    exact ⟨_, ⟨parent, name, htarget, hlong, hdirectory, rfl⟩, rfl⟩
  · rintro ⟨_, ⟨parent, name, htarget, hlong, hdirectory, rfl⟩, rfl⟩
    exact ⟨parent, name, htarget, hlong, hdirectory, rfl⟩

/-- **A path can be read if a file is at its place.** -/
theorem read_eq_ok_iff : d.read path = .ok content ↔ ∃ p, d.place? path = some p ∧ d.content? p = some content := by
  constructor
  · intro h
    obtain ⟨target, htarget, h⟩ := bind_eq_ok.1 h
    cases target with
    | directory => cases h
    | named parent name slash =>
      dsimp only at h
      split at h
      · cases h
      split at h
      · cases h
      split at h
      · cases h
      split at h
      · cases h
      next hlong hdirectory _ t hcontent hslash =>
        cases h
        simp only [Bool.not_eq_true] at hlong hdirectory hslash
        subst hslash
        exact ⟨_, place?_eq_some.2 ⟨parent, name, mapError_eq_ok.1 htarget, hlong, hdirectory, rfl⟩, hcontent⟩
  · rintro ⟨p, hp, hcontent⟩
    obtain ⟨parent, name, htarget, hlong, hdirectory, rfl⟩ := place?_eq_some.1 hp
    exact read_eq_ok htarget hlong hdirectory hcontent

/-! ### Places after a write -/

theorem enter_put_of_parent (h : d.isDirectory parent = true) {step : Text} :
    (d.put (parent ++ [name]) content).enter q step = .ok r ↔ d.enter q step = .ok r := by
  simp only [enter, isDirectory_put_of_parent h]
  split_ifs <;> simp

theorem foldlM_enter_put_of_parent (h : d.isDirectory parent = true) :
    steps.foldlM (d.put (parent ++ [name]) content).enter q = .ok r ↔ steps.foldlM d.enter q = .ok r := by
  induction steps generalizing q with
  | nil => rfl
  | cons step steps ih => simp only [foldlM_cons, bind_eq_ok, enter_put_of_parent h, ih]

/-- **A write moves no path.** -/
theorem place?_write (h : d.write path content = .ok d') (other : Text) : d'.place? other = d.place? other := by
  obtain ⟨parent, name, htarget, -, -, rfl⟩ := write_eq_ok.1 h
  have hparent := isDirectory_parent htarget
  have hstart : (d.put (parent ++ [name]) content).start other = d.start other := by rw [start, start, here_put]
  ext p
  simp only [place?_eq_some, target_eq_named, hstart, foldlM_enter_put_of_parent hparent,
    isDirectory_put_of_parent hparent]

theorem content?_write (h : d.write path content = .ok d') (p : Place) :
    d'.content? p = if d.place? path = some p then some content else d.content? p := by
  obtain ⟨q, hq, rfl⟩ := write_eq_ok_iff.1 h
  rw [content?_put, hq]
  simp only [Option.some.injEq, eq_comm]

/-- **What is written to a path is read from it.** -/
theorem read_of_write (h : d.write path content = .ok d') : d'.read path = .ok content := by
  obtain ⟨p, hp, -⟩ := write_eq_ok_iff.1 h
  refine read_eq_ok_iff.2 ⟨p, (place?_write h path).trans hp, ?_⟩
  rw [content?_write h, if_pos hp]

/-- What can be written to once can be written to again. -/
theorem exists_rewrite (h : d.write path content = .ok d') (t : Text) : ∃ d'', d'.write path t = .ok d'' := by
  obtain ⟨p, hp, -⟩ := write_eq_ok_iff.1 h
  exact ⟨_, write_eq_ok_iff.2 ⟨p, (place?_write h path).trans hp, rfl⟩⟩

/-! ### Several writes -/

/-- The paths with their contents are written one after another, which makes `d'` of `d`. -/
inductive Writes : FileTree → List (Text × Text) → FileTree → Prop where
  | nil {d : FileTree} : Writes d [] d
  | cons {d d₁ d' : FileTree} {path content : Text} {ws : List (Text × Text)}
    (h : d.write path content = .ok d₁) (hrest : Writes d₁ ws d') : Writes d ((path, content) :: ws) d'

namespace Writes

variable {ws : List (Text × Text)}

/-- **Writes move no path.** -/
theorem place?_eq (h : Writes d ws d') (other : Text) : d'.place? other = d.place? other := by
  induction h with
  | nil => rfl
  | cons hwrite _ ih => rw [ih, place?_write hwrite]

/-- **A place that no written path leads to keeps its content.** -/
theorem content?_of_forall_ne (h : Writes d ws d') (hp : ∀ w ∈ ws, d.place? w.1 ≠ some p) :
    d'.content? p = d.content? p := by
  induction h with
  | nil => rfl
  | cons hwrite _ ih =>
    obtain ⟨hfirst, hrest⟩ := forall_mem_cons.1 hp
    rw [ih (by simpa only [place?_write hwrite] using hrest), content?_write hwrite, if_neg hfirst]

/-- A path that is written to leads to a place. -/
theorem exists_place? (h : Writes d ws d') {w : Text × Text} (hw : w ∈ ws) : ∃ p, d.place? w.1 = some p := by
  induction h with
  | nil => cases hw
  | cons hwrite _ ih =>
    rcases mem_cons.1 hw with rfl | hw
    · obtain ⟨p, hp, -⟩ := write_eq_ok_iff.1 hwrite
      exact ⟨p, hp⟩
    · obtain ⟨p, hp⟩ := ih hw
      exact ⟨p, (place?_write hwrite _).symm.trans hp⟩

theorem append {ws' : List (Text × Text)} {d'' : FileTree} (h : Writes d ws d') (h' : Writes d' ws' d'') :
    Writes d (ws ++ ws') d'' := by
  induction h with
  | nil => exact h'
  | cons hwrite _ ih => exact .cons hwrite (ih h')

/-- **A place that a written path leads to has a content that was written to it.** -/
theorem exists_content? (h : Writes d ws d') (hp : ∃ w ∈ ws, d.place? w.1 = some p) :
    ∃ w ∈ ws, d.place? w.1 = some p ∧ d'.content? p = some w.2 := by
  induction h with
  | nil => exact absurd hp (by simp)
  | @cons d d₁ d' path content ws hwrite hrest ih =>
    by_cases hlater : ∃ w ∈ ws, d₁.place? w.1 = some p
    · obtain ⟨w, hw, hplace, hcontent⟩ := ih hlater
      exact ⟨w, mem_cons_of_mem _ hw, (place?_write hwrite _).symm.trans hplace, hcontent⟩
    · -- the first write is the last one to the place
      have hfirst : d.place? path = some p := by
        obtain ⟨w, hw, hplace⟩ := hp
        rcases mem_cons.1 hw with rfl | hw
        · exact hplace
        · exact absurd ⟨w, hw, (place?_write hwrite w.1).trans hplace⟩ hlater
      refine ⟨_, mem_cons_self, hfirst, ?_⟩
      rw [hrest.content?_of_forall_ne fun w hw hplace => hlater ⟨w, hw, hplace⟩, content?_write hwrite, if_pos hfirst]

/-- **A path that is written to can be read,** with a content that was written to its place. -/
theorem exists_read (h : Writes d ws d') {w : Text × Text} (hw : w ∈ ws) :
    ∃ w' ∈ ws, d.place? w'.1 = d.place? w.1 ∧ d'.read w.1 = .ok w'.2 := by
  obtain ⟨p, hp⟩ := h.exists_place? hw
  obtain ⟨w', hw', hplace, hcontent⟩ := h.exists_content? ⟨w, hw, hp⟩
  exact ⟨w', hw', hplace.trans hp.symm, read_eq_ok_iff.2 ⟨p, (h.place?_eq _).trans hp, hcontent⟩⟩

end Writes

/-! ### Paths to different places -/

/-- The last part of a path is empty only if the path is or ends in a slash. -/
theorem getLastD_split {g : Glyph} (h : (t.split g).getLastD [] = []) (ht : t ≠ []) : t.getLast? = some g := by
  induction t with
  | nil => exact absurd rfl ht
  | cons x t ih =>
    obtain ⟨p, ps, hp⟩ := exists_cons_of_ne_nil (Text.split_ne_nil g t)
    rw [hp] at ih
    rw [Text.split, hp] at h
    cases t with
    | nil =>
      -- one glyph, which is the separator
      obtain ⟨rfl, rfl⟩ : [] = p ∧ [] = ps := by simpa [Text.split] using hp
      by_cases hx : x = g
      · rw [hx]
        rfl
      · simp [hx] at h
    | cons =>
      rw [getLast?_cons_cons]
      refine ih ?_ (cons_ne_nil _ _)
      by_cases hx : x = g
      · simpa [hx] using h
      · cases ps with
        | nil => simp [hx] at h
        | cons => simpa [hx] using h

/-- The names in a path whose last part is not empty. -/
theorem names_append {front ending : Text} (hending : Glyph.char '/' ∉ ending)
    (h : (front.split '/').getLastD [] ++ ending ≠ []) : names (front ++ ending) =
      (front.split '/').dropLast.filter (· ≠ []) ++ [(front.split '/').getLastD [] ++ ending] := by
  rw [names, Path.parts, Text.split_append_right hending, filter_append]
  simp only [append_cancel_left_eq]
  exact filter_cons_of_pos (decide_eq_true h)

/-- The name of what a path leads to, if the path goes on without a slash behind `front`. -/
theorem name_of_target {ending : Text} (hending : Glyph.char '/' ∉ ending)
    (h : d.target (front ++ ending) = .ok (.named parent name false)) :
    name = (front.split '/').getLastD [] ++ ending := by
  obtain ⟨hproblem, -, hname, -, hslash⟩ := target_eq_named.1 h
  have hempty : front ++ ending ≠ [] := by
    intro hempty
    rw [hempty] at hproblem
    cases hproblem
  have hlast : (front.split '/').getLastD [] ++ ending ≠ [] := by
    intro hlast
    have hsplit := Text.split_append_right hending front
    rw [hlast] at hsplit
    have hend : (front ++ ending).getLast? = some (.char '/') :=
      getLastD_split (by rw [hsplit, getLastD_concat]) hempty
    simp [hend] at hslash
  rw [names_append hending hlast, getLast?_concat] at hname
  exact (Option.some.inj hname).symm

/-- **Different names in one directory are different places.** -/
theorem place?_ne_of_ending {e₁ e₂ : Text} (h₁ : Glyph.char '/' ∉ e₁) (h₂ : Glyph.char '/' ∉ e₂) (hne : e₁ ≠ e₂)
    (hp : d.place? (front ++ e₁) = some p) : d.place? (front ++ e₂) ≠ some p := by
  intro hp'
  obtain ⟨parent, name, htarget, -, -, rfl⟩ := place?_eq_some.1 hp
  obtain ⟨parent', name', htarget', -, -, hsame⟩ := place?_eq_some.1 hp'
  obtain ⟨-, hname⟩ := append_inj' hsame rfl
  rw [name_of_target h₁ htarget, name_of_target h₂ htarget'] at hname
  exact hne (append_cancel_left (List.cons.inj hname).1)

end RegexBuilder.FileTree
