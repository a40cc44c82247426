/-
# The note of a subtraction

A rendering notes that a subtraction of sets is written, and never takes it back. The sets that subtract something are
a marking that their note gives away (`Marking.isReliable_subtractions`). A text that is kept has left its note behind
(`Session.IsNoted`), so the note is exact (`Graph.subtraction_iff_shows`).
-/

import RegexBuilder.Proofs.Shown

namespace RegexBuilder

open List Option Session

/-! ### Sets that subtract something -/

/-- The sets that subtract something, which are given away by the note of it. -/
def Marking.subtractions : Marking where
  below := Node.shownRefs
  own n := ∃ s, n = .set s ∧ s.hasSubtraction = true
  admits _ := True
  tells _ := False
  subtraction := True

namespace CharacterSet

variable {g : Graph} {s : CharacterSet Ref}

/-- The endpoints of ranges that are resolved are characters. -/
theorem memberForm?_of_resolveRanges {ranges : List (Range Ref)} {rs : List (Range Character)}
    (h : resolveRanges g ranges = .ok rs) :
    ∀ r ∈ ranges.flatMap fun r => [r.first, r.last], g.memberForm? r ≠ none := by
  intro r hr
  obtain ⟨range, hrange, hr⟩ := mem_flatMap.1 hr
  obtain ⟨c, -, hfirst, hlast⟩ := exists_mem_of_forall₂ (character?_of_resolveRanges h) hrange
  refine Graph.memberForm?_of_character? ?_
  rcases mem_pair.1 hr with rfl | rfl
  · exact hfirst ▸ some_ne_none _
  · exact hlast ▸ some_ne_none _

variable {ranges : List (Range Character)} {t : Text}

theorem memberForm?_of_contents {members : List Ref} (h : contents g ranges members = .ok t) :
    ∀ m ∈ members, g.memberForm? m ≠ none := by
  intro m hm
  obtain ⟨forms, hforms, -⟩ := bind_eq_ok.1 h
  obtain ⟨u, -, hu⟩ := exists_mem_of_forall₂ (mapM_eq_ok_iff.1 hforms) hm
  split at hu
  · cases hu
  · next hform => exact hform ▸ some_ne_none _

/-- **What stands in a set that is written between brackets are characters and classes.** -/
theorem memberForm?_of_bracketed {subtracted : List (Range Character)} (hranges : resolveRanges g s.ranges = .ok ranges)
    (hsubtracted : resolveRanges g s.subtractedRanges = .ok subtracted) (h : s.bracketed g ranges subtracted = .ok t) :
    ∀ r ∈ s.refs, g.memberForm? r ≠ none := by
  obtain ⟨base, hbase, h⟩ := bind_eq_ok.1 h
  have hminus : ∀ m ∈ s.subtractedMembers, g.memberForm? m ≠ none := by
    cases hsub : s.hasSubtraction with
    | true =>
      simp only [hsub, if_true] at h
      obtain ⟨minus, hminus, -⟩ := bind_eq_ok.1 h
      exact memberForm?_of_contents hminus
    | false =>
      have hnil : s.subtractedMembers = [] := by
        rw [hasSubtraction, Bool.or_eq_false_iff] at hsub
        simpa using hsub.2
      exact fun m hm => nomatch hnil ▸ hm
  intro r hr
  rw [refs, mem_append, mem_append, mem_append] at hr
  rcases hr with ((hr | hr) | hr) | hr
  · exact memberForm?_of_resolveRanges hranges r hr
  · exact memberForm?_of_contents hbase r hr
  · exact memberForm?_of_resolveRanges hsubtracted r hr
  · exact hminus r hr

/-- What is written in place of a set subtracts nothing, and it is a character or all that the set refers to. -/
theorem only?_eq_some (hranges : resolveRanges g s.ranges = .ok ranges) {r : Ref} (h : s.only? ranges = some r) :
    s.hasSubtraction = false ∧ (s.refs = [r] ∨ r ∈ s.refs ∧ ∀ r' ∈ s.refs, g.memberForm? r' ≠ none) := by
  have hmem := mem_refs_of_only? h
  unfold only? at h
  split at h
  · cases h
  · next hplain =>
    rw [Bool.or_eq_true, not_or, Bool.not_eq_true, Bool.not_eq_true] at hplain
    have hsub := hplain.2
    rw [hasSubtraction, Bool.or_eq_false_iff] at hsub
    have hranges' : s.subtractedRanges = [] := by simpa using hsub.1
    have hmembers' : s.subtractedMembers = [] := by simpa using hsub.2
    refine ⟨hplain.2, ?_⟩
    split at h
    · next hr hm =>
      cases h
      exact .inl (by simp [refs, *])
    · next hr hm =>
      refine .inr ⟨hmem, fun r' hr' => memberForm?_of_resolveRanges hranges r' ?_⟩
      simpa [refs, hm, hranges', hmembers'] using hr'
    · cases h

end CharacterSet

namespace Marking

variable {g : Graph} {i : NodeId} {r : Ref}

theorem isSilent_subtractions (t : Text) : subtractions.IsSilent t := ⟨trivial, id⟩

theorem not_isShown_of_memberForm? (h : g.memberForm? r ≠ none) : ¬ subtractions.IsShown g r := by
  have hleaf : ∀ {i l}, g.node? i = some (.leaf l) → ¬ subtractions.IsShown g (some i) := by
    intro i l hn
    rw [isShown_node hn]
    rintro ⟨-, ⟨s, hs, -⟩ | ⟨r, hr, -⟩⟩
    · cases hs
    · cases hr
  obtain ⟨t, h⟩ := ne_none_iff_exists'.1 h
  obtain ⟨i, rfl, ⟨c, hn, -⟩ | ⟨c, hn, -⟩⟩ := Graph.exists_leaf_of_memberForm? h
  · exact hleaf hn
  · exact hleaf hn

/-- A set shows a subtraction if it has one or shows one. -/
theorem isShown_set {s : CharacterSet Ref} (hn : g.node? i = some (.set s)) (hi : g.IsFilled (some i)) :
    subtractions.IsShown g (some i) ↔ s.hasSubtraction = true ∨ ∃ r ∈ s.refs, subtractions.IsShown g r := by
  rw [isShown_node hn, and_iff_right hi]
  exact or_congr_left ⟨fun ⟨_, hs, h⟩ => Node.set.inj hs ▸ h, fun h => ⟨s, rfl, h⟩⟩

/-- **The note of a subtraction gives away the sets that subtract something,** in every graph. -/
theorem isReliable_subtractions (g : Graph) : subtractions.IsReliable g where
  below _ := rfl
  own := fun ⟨s, hs, _⟩ => .inr ⟨s, hs⟩
  leaf _ _ := ⟨trivial, iff_of_false id fun ⟨_, hs, _⟩ => nomatch hs⟩
  fixed t _ := isSilent_subtractions t
  suffix b := isSilent_subtractions _
  opening _ := isSilent_subtractions _
  options _ _ _ := isSilent_subtractions _
  number _ := isSilent_subtractions _
  name _ _ := isSilent_subtractions _
  instead {i s ranges r} hn hranges hr hi := by
    obtain ⟨hsub, hrefs⟩ := CharacterSet.only?_eq_some hranges hr
    rw [isShown_set hn hi, hsub]
    rcases hrefs with hone | ⟨hr, hleaves⟩
    · simp [hone]
    · refine iff_of_false ?_ (not_isShown_of_memberForm? (hleaves r hr))
      rintro (h | ⟨r', hr', h⟩)
      · cases h
      · exact not_isShown_of_memberForm? (hleaves r' hr') h
  bracket {i s ranges subtracted t} hn hranges hsubtracted _ ht hi := by
    have hleaves := CharacterSet.memberForm?_of_bracketed hranges hsubtracted ht
    have hbelow : ¬ ∃ r ∈ s.refs, subtractions.IsShown g r := fun ⟨r, hr, h⟩ =>
      not_isShown_of_memberForm? (hleaves r hr) h
    refine ⟨trivial, ?_⟩
    rw [isShown_set hn hi, or_iff_left hbelow]
    exact ⟨fun hsub => .inl ⟨hsub, trivial⟩, fun h => h.elim And.left False.elim⟩

end Marking

/-! ### Sessions -/

/-- A subtraction is noted exactly if `F` holds, and texts that were kept have left their note. -/
structure Session.IsNoted (g : Graph) (F : Prop) (s : Session) : Prop where
  upholds : s.Upholds g.Attests
  kept : ∀ i t, s.texts.lookup i = some t → Marking.subtractions.IsShown g (some i) → s.subtraction = true
  noted : s.subtraction = true ↔ F

section

variable {g : Graph} {F : Prop} {s s' : Session}

theorem Session.isNoted_empty (g : Graph) : ({} : Session).IsNoted g False :=
  ⟨upholds_empty _, fun _ _ h => (nomatch h), iff_of_false nofun id⟩

theorem Session.IsNoted.congr {F' : Prop} (h : s.IsNoted g F) (hF : F ↔ F') : s.IsNoted g F' :=
  ⟨h.upholds, h.kept, h.noted.trans hF⟩

/-- Writing changes nothing that is noted. -/
theorem Session.IsNoted.of_kept (h : s.IsNoted g F) (hkept : ∀ q, s'.kept q = s.kept q)
    (hsub : s'.subtraction = s.subtraction) : s'.IsNoted g F where
  upholds := h.upholds.of_kept hkept
  kept i t ht := hsub ▸ h.kept i t (show (s.kept .text).lookup i = some t from hkept .text ▸ ht)
  noted := hsub ▸ h.noted

theorem Session.isNotedBy_isNoted (g : Graph) (base : Nat) :
    Rule.IsNotedBy (Marking.subtractions.signs g) base fun F s => s.IsNoted g F where
  write {_ s t} hs _ := (hs.of_kept (s.kept_write t) rfl).congr (or_iff_left id).symm
  separate {_ s _} hs _ := hs.of_kept (s.kept_separateEscape _) rfl
  subtract {_ s} hs :=
    ⟨hs.upholds.of_kept (s.kept_subtraction true), fun _ _ _ _ => rfl, iff_of_true rfl (.inr trivial)⟩

namespace Graph

/-- A text from the table is written again, and its note is there. -/
theorem isNoted_write {q : Question} {i : NodeId} {a : q.Answer} (hs : s.IsNoted g F)
    (hk : (s.kept q).lookup i = some a) :
    (s.write (q.shown a)).IsNoted g (q.Notes (Marking.subtractions.signs g) (some i) F) := by
  have hs' := hs.of_kept (s.kept_write (q.shown a)) rfl
  cases q with
  | text => exact hs'.congr (or_iff_left_of_imp fun hi => hs.noted.1 (hs.kept i a hk hi)).symm
  | core | empty | single => exact hs'

theorem isNoted_keep {q : Question} {i : NodeId} {a : q.Answer}
    (hs : s.IsNoted g (q.Notes (Marking.subtractions.signs g) (some i) F)) (ha : g.Attests q (some i) a) :
    (s.keep q i a).IsNoted g (q.Notes (Marking.subtractions.signs g) (some i) F) where
  upholds := hs.upholds.keep ha
  kept := by
    rw [subtraction_keep]
    cases q with
    | text => exact forall_texts_keep hs.kept fun hi => hs.noted.2 (.inr hi)
    | core | empty | single => exact hs.kept
  noted := by
    rw [subtraction_keep]
    exact hs.noted

/-- **What is written in a session is noted exactly.** -/
theorem asking_isNoted : ∀ (d : Nat) (o : Open) (q : Question) (r : Ref) (F : Prop),
    Ensures (·.IsNoted g F) (g.asking true d o q r)
      (fun a s => g.Attests q r a ∧ s.IsNoted g (q.Notes (Marking.subtractions.signs g) r F)) fun _ => True
  | 0, _, _, _, _ => .throw trivial
  | d + 1, o, q, r, F => by
    refine fun s hs => ⟨fun a s' h => ?_, fun _ _ => trivial⟩
    obtain ⟨hattests, -⟩ := (asking_upholds g.isUpheld_attests true (d + 1) o q r s hs.upholds).1 a s' h
    refine ⟨hattests, ?_⟩
    rcases asking_cases h with ⟨hr, rfl, rfl⟩ | ⟨i, n, rfl, hn, ⟨hk, rfl⟩ | ⟨s₁, hrun, rfl⟩⟩
    · cases q with
      | text => exact hs.congr (or_iff_left (Marking.not_isShown_of_empty (means_absent hr))).symm
      | core | empty | single => exact hs
    · exact isNoted_write hs hk
    · have hrule := Node.rule_notes (Marking.isReliable_subtractions g) hn q F
      obtain ⟨F', hF', hs₁⟩ := (hrule.run_ensures (isNotedBy_isNoted g _)
        (asking_isNoted d (o.enter q i)) s hs).1 a s₁ hrun
      exact isNoted_keep (hs₁.congr hF') hattests

/-- **A subtraction is noted exactly if a set with one is shown:** if a node with a set that subtracts something is met
on a way down from the pattern on which no node is empty, and which passes the expression of a conditional only where
that is the condition. This holds of every graph, whether or not nodes are shared or lie on cycles. -/
theorem subtraction_iff_shows {r : Ref} {x : Rendering} (h : g.render r = .ok x) : x.subtraction = true ↔
    ∃ j s, g.Shows Node.shownRefs r j ∧ g.node? j = some (.set s) ∧ s.hasSubtraction = true := by
  obtain ⟨t, s, hs, rfl⟩ := Ask.rendering_eq_ok.1 h
  have hnoted := ((asking_isNoted _ _ .text r False {} (isNoted_empty g)).1 t s hs).2
  refine (hnoted.noted.trans (or_iff_right id)).trans ?_
  constructor
  · rintro ⟨j, _, hj, hn, s, rfl, hsub⟩
    exact ⟨j, s, hj, hn, hsub⟩
  · rintro ⟨j, s, hj, hn, hsub⟩
    exact ⟨j, _, hj, hn, s, rfl, hsub⟩

/-- A set that subtracts something, in a group and alone, and a conditional to which it is no condition, with a
quantifier of it that says never. -/
def sharedSubtraction : Graph :=
  ⟨#[.leaf (.character (.plain 97)), .leaf (.character (.plain 122)), .leaf (.character (.plain 109)),
    .set { ranges := [⟨some 0, some 1⟩], subtractedMembers := [some 2] }, .group (some 3), .concat [some 4, some 3],
    .quantified ⟨0, 0, true⟩ (some 3), .conditional { kind := .groupNumber, group := 1 } (some 3) (some 0) (some 6)]⟩

theorem subtraction_iff_shows_sharedSubtraction :
    (sharedSubtraction.render (some 5) = .ok ⟨"[a-z-[m]][a-z-[m]]", true⟩ ∧
      ∃ j s, sharedSubtraction.Shows Node.shownRefs (some 5) j ∧ sharedSubtraction.node? j = some (.set s) ∧
        s.hasSubtraction = true) ∧
    (sharedSubtraction.render (some 7) = .ok ⟨"(?(1)a)", false⟩ ∧
      ¬ ∃ j s, sharedSubtraction.Shows Node.shownRefs (some 7) j ∧ sharedSubtraction.node? j = some (.set s) ∧
        s.hasSubtraction = true) := by
  have htwice : sharedSubtraction.render (some 5) = .ok ⟨"[a-z-[m]][a-z-[m]]", true⟩ := by decide +kernel
  have hnever : sharedSubtraction.render (some 7) = .ok ⟨"(?(1)a)", false⟩ := by decide +kernel
  exact ⟨⟨htwice, (subtraction_iff_shows htwice).1 rfl⟩, hnever, fun h => nomatch (subtraction_iff_shows hnever).2 h⟩

end Graph
end

end RegexBuilder
