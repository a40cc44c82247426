/-
# Reading a pattern with the option `x`

With the option `x` a reader ignores blanks and comments that begin with `#`. What is written escapes neither, so a
blank of a literal is lost (`Graph.blank_lost_extended`).

The leaves with such a character are a marking that is given away by what is exposed (`Marking.isReliable_ignored`).
The output is followed behind a cut (`Session.IsScanned`), at first behind its beginning, and for a text that is new
also behind the place where it begins.
-/

import RegexBuilder.Proofs.Shown
import RegexBuilder.Proofs.Zones

namespace RegexBuilder

open Option Session Text

/-- A graph with checked names and without comments. -/
structure Graph.IsStructured (g : Graph) : Prop extends g.HasCheckedNames where
  comment : ∀ {i t}, g.node? i ≠ some (.leaf (.comment t))

/-- A literal or a plain character with a blank or `#`. -/
def Leaf.hasIgnored : Leaf → Bool
  | literal t => t.any Glyph.isIgnored
  | character c => c.isIgnored
  | _ => false

/-- What is written in place of a set, if anything is. -/
def CharacterSet.instead? (g : Graph) (s : CharacterSet Ref) : Option Ref :=
  match resolveRanges g s.ranges with
  | .ok ranges => s.only? ranges
  | .error _ => none

/-- What a node that is not empty writes outside of sets. -/
def Graph.bareRefs (g : Graph) : Node → List Ref
  | .set s => (s.instead? g).toList
  | n => n.shownRefs

/-- The leaves with a character that is ignored, which are given away by what is exposed. -/
def Marking.ignored (g : Graph) : Marking where
  below := g.bareRefs
  own n := ∃ l, n = .leaf l ∧ l.hasIgnored = true
  admits t := Zone.free.after t = .free
  tells t := Zone.free.exposes t = true
  subtraction := False

/-! ### Texts of nodes -/

namespace Graph.IsStructured

variable {g : Graph} {i : NodeId} (hg : g.IsStructured)

include hg

/-- **A leaf exposes what is ignored of it.** -/
theorem loops_leaf {l : Leaf} {t : Text} (hn : g.node? i = some (.leaf l)) (h : l.form = .ok t) :
    Zone.free.Loops t l.hasIgnored := by
  cases l with
  | literal u =>
    cases h
    exact Zone.loops_escapeLiteral u
  | raw => exact absurd hn hg.raw
  | character c =>
    cases h
    exact c.loops_form
  | charClass =>
    rw [Leaf.form] at h
    split at h
    · cases h
    · cases h
      exact CharClass.loops_form (hg.category hn) rfl
  | wildcard =>
    cases h
    exact .inert rfl (by decide)
  | anchor kind =>
    cases kind with
    | undeclared => cases h
    | lineStart | lineEnd =>
      cases h
      exact .inert rfl (by decide)
    | textStart | textEndOrNewline | textEnd | contiguous | wordBoundary | notWordBoundary =>
      cases h
      exact .escaped rfl _ (by decide)
  | backreference b =>
    rw [Leaf.form] at h
    split at h
    · next hname =>
      cases h
      have hinert : b.name.IsInert := isInert_of_checkName (hg.backreference hn hname)
      exact .escaped rfl (.char 'k') ((IsInert.append (t := "<") (by decide) hinert).append (by decide))
    · split at h
      · cases h
      · cases h
        exact .slash rfl (ofInt_ne_nil _) (isInert_ofInt _)
  | comment => exact absurd hn hg.comment

theorem isInert_opening {how : Enclosure} {c : Ref} (hn : g.node? i = some (.enclosed how c)) :
    how.opening.IsInert := by
  cases how with
  | capture | atomic => decide
  | named name =>
    have hname : name.IsInert := isInert_of_checkName (hg.named hn)
    exact (IsInert.append (by decide) hname).append (by decide)
  | balancing name other =>
    obtain ⟨hname, hother⟩ := hg.balancing hn
    have hname : name.IsInert := by
      by_cases hnil : name = []
      · rw [hnil]
        decide
      · exact isInert_of_checkName (hname hnil)
    have hother : other.IsInert := isInert_of_checkName hother
    exact (((IsInert.append (by decide) hname).append (by decide)).append hother).append (by decide)
  | look kind =>
    have hlook : ∀ t ∈ (["(?!", "(?<=", "(?<!", "(?="] : List Text), t.IsInert := by decide
    cases kind <;> exact hlook _ (by simp [Enclosure.opening])

/-- A member of a set exposes nothing in it. -/
theorem loops_memberForm {m : Ref} {u : Text} (h : g.memberForm? m = some u) : Zone.set.Loops u false := by
  obtain ⟨j, rfl, ⟨c, hj, rfl⟩ | ⟨c, hj, rfl⟩⟩ := exists_leaf_of_memberForm? h
  · exact c.loops_form_set
  · exact CharClass.loops_form (hg.category hj) rfl

end Graph.IsStructured

namespace Marking

variable {g : Graph} {i : NodeId}

theorem isSilent_ignored {t : Text} (h : t.IsInert) : (ignored g).IsSilent t :=
  have hloops := Zone.Loops.inert (z := .free) rfl h
  ⟨hloops.after, Bool.eq_false_iff.1 hloops.exposes⟩

theorem isShown_ignored_set {s : CharacterSet Ref} (hn : g.node? i = some (.set s)) (hi : g.IsFilled (some i)) :
    (ignored g).IsShown g (some i) ↔ ∃ r, s.instead? g = some r ∧ (ignored g).IsShown g r := by
  rw [isShown_node hn, and_iff_right hi]
  refine (or_iff_right fun ⟨_, hl, _⟩ => nomatch hl).trans ?_
  exact exists_congr fun r => and_congr_left' mem_toList

/-- **What is exposed gives away the leaves with a character that is ignored.** -/
theorem isReliable_ignored (hg : g.IsStructured) : (ignored g).IsReliable g where
  below {n} hset := by
    cases n with
    | set s => exact absurd rfl (hset s)
    | _ => rfl
  own := by
    rintro _ ⟨l, rfl, hl⟩
    refine .inl ⟨l, rfl, ?_⟩
    cases l with
    | literal =>
      obtain ⟨x, hx, -⟩ := List.any_eq_true.1 hl
      exact List.isEmpty_eq_false_iff_exists_mem.2 ⟨x, hx⟩
    | character => rfl
    | raw | charClass | wildcard | anchor | backreference | comment => cases hl
  leaf {i l t} hn ht := by
    have hloops := hg.loops_leaf hn ht
    refine ⟨hloops.after, ?_⟩
    show Zone.free.exposes t = true ↔ _
    rw [hloops.exposes]
    exact ⟨fun h => ⟨l, rfl, h⟩, fun ⟨_, hl, h⟩ => Node.leaf.inj hl ▸ h⟩
  fixed t ht := by
    have hinert : ∀ t ∈ (["(?:", "(?(", ")", "|"] : List Text), t.IsInert := by decide
    exact isSilent_ignored (hinert t ht)
  suffix b := isSilent_ignored b.isInert_suffix
  opening hn := isSilent_ignored (hg.isInert_opening hn)
  options on off c := isSilent_ignored (isInert_optionsOpening g on off c)
  number n := isSilent_ignored (isInert_ofInt n)
  name hn hkind := isSilent_ignored (isInert_of_checkName (hg.condition hn hkind))
  instead {i s ranges r} hn hranges hr hi := by
    have hinstead : s.instead? g = some r := by
      rw [CharacterSet.instead?, hranges]
      exact hr
    rw [isShown_ignored_set hn hi, hinstead]
    simp
  bracket {i s ranges subtracted t} hn hranges hsubtracted hnone ht hi := by
    have hloops := CharacterSet.loops_bracketed ht hg.loops_memberForm
    have hinstead : s.instead? g = none := by
      rw [CharacterSet.instead?, hranges]
      exact hnone
    refine ⟨hloops.after, ?_⟩
    rw [isShown_ignored_set hn hi, hinstead]
    refine iff_of_false (fun ⟨_, h, _⟩ => nomatch h) ?_
    rintro (⟨-, h⟩ | h)
    · exact h
    · exact Bool.eq_false_iff.1 hloops.exposes h

end Marking

/-! ### Sessions -/

/-- A reader is free at the cut of the output and at its end, behind the cut something is exposed exactly if `F` holds,
and each kept text exposes what its node shows. -/
structure Session.IsScanned (g : Graph) (cut : Nat) (F : Prop) (s : Session) : Prop where
  upholds : s.Upholds g.Attests
  isCut : s.out.IsCut cut
  exposed : Zone.free.exposes (s.out.drop cut) = true ↔ F
  kept : ∀ i t, s.texts.lookup i = some t →
    Zone.free.after t = .free ∧ (Zone.free.exposes t = true ↔ (Marking.ignored g).IsShown g (some i))

section

variable {g : Graph} {cut : Nat} {F : Prop} {s s' : Session}

theorem Session.isScanned_empty (g : Graph) : ({} : Session).IsScanned g 0 False :=
  ⟨upholds_empty _, ⟨Nat.le_refl 0, rfl, rfl⟩, iff_of_false nofun id, fun _ _ h => (nomatch h)⟩

namespace Session.IsScanned

theorem congr {F' : Prop} (h : s.IsScanned g cut F) (hF : F ↔ F') : s.IsScanned g cut F' :=
  ⟨h.upholds, h.isCut, h.exposed.trans hF, h.kept⟩

/-- The output may also be cut at its end, behind which nothing is exposed. -/
theorem atEnd (h : s.IsScanned g cut F) : s.IsScanned g s.out.length False :=
  ⟨h.upholds, h.isCut.atEnd, iff_of_false (by rw [List.drop_length]; exact Bool.false_ne_true) id, h.kept⟩

theorem write (h : s.IsScanned g cut F) {t : Text} (ht : Zone.free.after t = .free) :
    (s.write t).IsScanned g cut (F ∨ Zone.free.exposes t = true) where
  upholds := h.upholds.of_kept (s.kept_write t)
  isCut := h.isCut.append ht
  exposed := by
    rw [Session.write, h.isCut.exposes_append, Bool.or_eq_true, h.exposed]
  kept := h.kept

theorem separateEscape (h : s.IsScanned g cut F) {place : Nat} (hplace : cut ≤ place) :
    (s.separateEscape place).IsScanned g cut F where
  upholds := h.upholds.of_kept (s.kept_separateEscape _)
  isCut := (h.isCut.separate hplace).1
  exposed := by
    rw [← h.exposed, ← (h.isCut.separate hplace).2]
    rfl
  kept := h.kept

end Session.IsScanned

theorem Session.isNotedBy_isScanned (g : Graph) {cut base : Nat} (hbase : cut ≤ base) :
    Rule.IsNotedBy ((Marking.ignored g).signs g) base fun F s => s.IsScanned g cut F where
  write hs ht := hs.write ht
  separate hs hplace := hs.separateEscape (hbase.trans hplace)
  subtract {_ s} hs := ⟨hs.upholds.of_kept (s.kept_subtraction true), hs.isCut,
    hs.exposed.trans (or_iff_left id).symm, hs.kept⟩

namespace Graph

/-- A text from the table is written again, and exposes what its node shows. -/
theorem isScanned_write {q : Question} {i : NodeId} {a : q.Answer} (hs : s.IsScanned g cut F)
    (hk : (s.kept q).lookup i = some a) :
    (s.write (q.shown a)).IsScanned g cut (q.Notes ((Marking.ignored g).signs g) (some i) F) := by
  cases q with
  | text =>
    obtain ⟨hafter, hexposes⟩ := hs.kept i a hk
    exact (hs.write hafter).congr (or_congr_right hexposes)
  | core | empty | single => exact (hs.write rfl).congr (or_iff_left Bool.false_ne_true)

/-- The text of a node is what stands behind the place where it began. -/
theorem text_eq_of_run {asking : Asking} {n : Node} {i : NodeId} {base : Nat} {t : Text}
    (h : (n.rule g i .text).run asking base s = .ok (t, s')) : t = s'.out.drop base := by
  rw [Node.rule, Rule.run_bind] at h
  obtain ⟨x, -, h⟩ := bind_eq_ok.1 h
  cases h
  rfl

/-- **What is written in a session exposes what is shown,** behind every cut. -/
theorem asking_isScanned (hg : g.IsStructured) : ∀ (d : Nat) (o : Open) (cut : Nat) (q : Question) (r : Ref) (F : Prop),
    Ensures (·.IsScanned g cut F) (g.asking true d o q r)
      (fun a s => g.Attests q r a ∧ s.IsScanned g cut (q.Notes ((Marking.ignored g).signs g) r F)) fun _ => True
  | 0, _, _, _, _, _ => .throw trivial
  | d + 1, o, cut, q, r, F => by
    refine fun s hs => ⟨fun a s' h => ?_, fun _ _ => trivial⟩
    obtain ⟨hattests, -⟩ := (asking_upholds g.isUpheld_attests true (d + 1) o q r s hs.upholds).1 a s' h
    refine ⟨hattests, ?_⟩
    rcases asking_cases h with ⟨hr, rfl, rfl⟩ | ⟨i, n, rfl, hn, ⟨hk, rfl⟩ | ⟨s₁, hrun, rfl⟩⟩
    · cases q with
      | text => exact hs.congr (or_iff_left (Marking.not_isShown_of_empty (means_absent hr))).symm
      | core | empty | single => exact hs
    · exact isScanned_write hs hk
    · have hrule := Node.rule_notes (Marking.isReliable_ignored hg) hn q
      have hask := asking_isScanned hg d (o.enter q i)
      obtain ⟨F', hF', hs₁⟩ := ((hrule F).run_ensures (isNotedBy_isScanned g hs.isCut.le) (hask cut) s hs).1 a s₁ hrun
      -- the same run with the cut at the place where the text of the node begins
      obtain ⟨F'', hF'', hown⟩ := ((hrule False).run_ensures (isNotedBy_isScanned g (Nat.le_refl _))
        (hask s.out.length) s hs.atEnd).1 a s₁ hrun
      have hupholds := hs₁.upholds.keep hattests
      have hexposed := hs₁.exposed.trans hF'
      cases q with
      | text =>
        have htext := text_eq_of_run hrun
        refine ⟨hupholds, hs₁.isCut, hexposed, forall_texts_keep hs₁.kept ⟨?_, ?_⟩⟩
        · rw [htext, hown.isCut.behind]
        · rw [htext, hown.exposed, hF'']
          exact or_iff_right id
      | core | empty | single => exact ⟨hupholds, hs₁.isCut, hexposed, hs₁.kept⟩

/-- A pattern exposes something exactly if it shows a character that is ignored. -/
theorem exposes_iff_isShown (hg : g.IsStructured) {r : Ref} {x : Rendering} (h : g.render r = .ok x) :
    Zone.free.exposes x.text = true ↔ (Marking.ignored g).IsShown g r := by
  obtain ⟨t, s, hs, rfl⟩ := Ask.rendering_eq_ok.1 h
  have hscanned := ((asking_isScanned hg _ _ 0 .text r False {} (isScanned_empty g)).1 t s hs).2
  exact hscanned.exposed.trans (or_iff_right id)

/-- Options show what the pattern that they apply to does. -/
theorem isShown_modified (hg : g.IsStructured) {m : NodeId} {on off : Options} {p : Ref}
    (hm : g.node? m = some (.modified on off p)) :
    (Marking.ignored g).IsShown g (some m) ↔ (Marking.ignored g).IsShown g p := by
  have hchild : (∃ r ∈ (Node.modified on off p).shownRefs, (Marking.ignored g).IsShown g r) ↔
      (Marking.ignored g).IsShown g p := by simp [Node.shownRefs, Node.refs]
  refine ((Marking.isReliable_ignored hg).isShown_iff_below hm (fun _ h => by cases h) (fun _ h => by cases h)
    fun h => ?_).trans hchild
  have hshown := hchild.1 h
  refine (means_node hm (by decide)).2 ?_
  show (if g.isAbsent p then _ else Rule.ask .empty p : Rule Bool).Finds g.Means false
  split
  · next habsent =>
    exact absurd hshown (Marking.not_isShown_of_empty (means_absent (isNone_iff_eq_none.1 habsent)))
  · exact (Rule.finds_ask (by decide)).2 hshown.isFilled

/-- No literal and no plain character that the pattern shows outside of sets holds a blank or `#`. -/
def IsLegibleExtended (g : Graph) (p : Ref) : Prop :=
  ∀ j l, g.Shows g.bareRefs p j → g.node? j = some (.leaf l) → l.hasIgnored = false

/-- **A pattern is taken in as a whole under the option `x` exactly if none of the characters that it shows is
ignored.** Then and only then neither a blank nor `#` stands outside of sets without a backslash before it. -/
theorem extended_eq_iff_shows (hg : g.IsStructured) {m : NodeId} {p : Ref}
    (hm : g.node? m = some (.modified ⟨16⟩ .empty p)) {x : Rendering} (hx : g.render (some m) = .ok x) :
    (Zone.free.exposes x.text = false ↔ g.IsLegibleExtended p) ∧
      (Zone.extended (some .free) x.text = x.text ↔ g.IsLegibleExtended p) := by
  have hexposes : Zone.free.exposes x.text = false ↔ g.IsLegibleExtended p := by
    rw [← Bool.not_eq_true, exposes_iff_isShown hg hx, isShown_modified hg hm]
    constructor
    · intro h j l hj hl
      exact Bool.eq_false_iff.2 fun hignored => h ⟨j, _, hj, hl, l, rfl, hignored⟩
    · rintro h ⟨j, _, hj, hn, l, rfl, hignored⟩
      exact Bool.eq_false_iff.1 (h j l hj hn) hignored
  exact ⟨hexposes, Zone.extended_eq_iff.trans hexposes⟩

/-- Under the option `x`, a literal without blanks next to a set of a blank and `#`, a set with a blank alone, and a
literal with a blank. -/
def extendedBlanks : Graph :=
  ⟨#[.leaf (.character (.plain 32)), .leaf (.character (.plain 35)), .leaf (.literal "a.b"),
    .set { members := [some 0, some 1] }, .concat [some 2, some 3], .modified ⟨16⟩ .empty (some 4),
    .set { members := [some 0] }, .modified ⟨16⟩ .empty (some 6), .leaf (.literal "a b"),
    .modified ⟨16⟩ .empty (some 8)]⟩

theorem extended_eq_iff_shows_extendedBlanks :
    (extendedBlanks.render (some 5) = .ok ⟨"(?x:a\\.b[ #])", false⟩ ∧ extendedBlanks.IsLegibleExtended (some 4)) ∧
      extendedBlanks.render (some 7) = .ok ⟨"(?x: )", false⟩ ∧ ¬ extendedBlanks.IsLegibleExtended (some 6) := by
  have hset : extendedBlanks.render (some 5) = .ok ⟨"(?x:a\\.b[ #])", false⟩ := by decide +kernel
  have halone : extendedBlanks.render (some 7) = .ok ⟨"(?x: )", false⟩ := by decide +kernel
  have hstructured : extendedBlanks.IsStructured := by
    refine ⟨?_, fun h => ?_⟩
    · constructor
      all_goals exact fun h => by simpa [extendedBlanks] using mem_nodes h
    · simpa [extendedBlanks] using mem_nodes h
  refine ⟨⟨hset, (extended_eq_iff_shows hstructured rfl hset).1.1 (by decide +kernel)⟩, halone, fun h => ?_⟩
  exact absurd ((extended_eq_iff_shows hstructured rfl halone).2.2 h) (by decide +kernel)

/-- **The blank of a literal is lost under the option `x`:** it is written without a backslash. -/
theorem blank_lost_extended : extendedBlanks.node? 9 = some (.modified ⟨16⟩ .empty (some 8)) ∧
    extendedBlanks.node? 8 = some (.leaf (.literal "a b")) ∧
      extendedBlanks.render (some 9) = .ok ⟨"(?x:a b)", false⟩ ∧ Zone.free.exposes "(?x:a b)" = true ∧
        Zone.extended (some .free) "(?x:a b)" = "(?x:ab)" := by
  refine ⟨rfl, rfl, ?_, ?_, ?_⟩
  · decide +kernel
  · decide +kernel
  · decide +kernel

end Graph
end

end RegexBuilder
