/-
# Texts that render a pattern

A text *renders* a pattern if it is read as branches that, without plain groups, are the flattened tree of the
pattern, with no more plain groups than this tree needs (`Graph.Rendered`). Where conditions are nested, a conditional
is read as a group, and the branches are not compared with the flattened tree. Three more facts are kept:

* there is nothing in the branches exactly if the pattern is empty;
* the text of what comes down to itself is one branch, unless it is an open alternation;
* the text of what is not empty is one piece without a suffix exactly if the pattern is single.
-/

import RegexBuilder.Proofs.Opening
import RegexBuilder.Proofs.Quiet

namespace RegexBuilder

open List
open Shape (isNothing one needBranches)

/-- A graph with checked names and without a plain `[` in a set, in which kinds are declared and members of sets are
characters or classes. -/
structure Graph.IsChecked (g : Graph) : Prop extends g.HasCheckedNames where
  kind : ∀ {i c code}, g.node? i = some (.leaf (.charClass c)) → c.kind ≠ .undeclared code
  member : ∀ {i s m}, g.node? i = some (.set s) → m ∈ s.members ++ s.subtractedMembers →
    g.memberForm? m ≠ none
  bracket : ∀ {i s r}, g.node? i = some (.set s) → r ∈ s.refs → g.character? r ≠ some (.plain 91)

theorem Graph.IsChecked.isTidy {g : Graph} (h : g.IsChecked) : g.IsTidy :=
  ⟨fun hn => absurd hn h.raw, h.kind, h.member⟩

/-- A checked graph in which options have letters and conditions are about groups. -/
structure Graph.IsReadable (g : Graph) : Prop extends g.IsChecked where
  about : ∀ {i c e yes no}, g.node? i = some (.conditional c e yes no) → c.kind = .groupNumber ∨ c.kind = .groupName
  options : ∀ {i on off c}, g.node? i = some (.modified on off c) → on.bits < 32

namespace Graph

/-- A group with options has an option to turn on or off. -/
def SetsOptions (g : Graph) : Prop :=
  ∀ {i on off c}, g.node? i = some (.modified on off c) → g.isAbsent c = false →
    ¬ (on = .empty ∧ off = .empty)

/-- A checked graph, which is readable unless conditions are nested. -/
structure IsWritable (g : Graph) (nested : Bool) : Prop where
  checked : g.IsChecked
  readable : nested = false → g.IsReadable

/-- Plain groups are counted, unless conditions are nested or a group with options has none. -/
def Counts (g : Graph) (nested : Bool) : Prop := nested = false ∧ g.SetsOptions

/-- The text is read as the branches. They are those of the flattened tree, unless conditions are nested, and show
whether the pattern is empty and whether it is single. -/
structure RendersAs (g : Graph) (nested : Bool) (r : Ref) (t : Text) (bs : List (List Item)) : Prop where
  writes : Writes nested (g.Counts nested) (needBranches (g.flattened r)) bs t
  erased : nested = false → eraseBranches bs = g.flattened r
  empty : isNothing (g.flattened r) = true ↔ bs = [[]]
  branch : g.IsCore r → isOpenAlternation g r = false → ∃ xs, bs = [xs]
  single : ∀ {c}, g.Means .single r c → isNothing (g.flattened r) = false →
    (c = true ↔ ∃ x, bs = [[x]] ∧ x.isRepeated = false)

/-- The text renders the pattern. -/
def Rendered (g : Graph) (nested : Bool) (r : Ref) (t : Text) : Prop := ∃ bs, g.RendersAs nested r t bs

/-- The text is read as one piece without a suffix, the flattened tree unless conditions are nested, with at most `k`
plain groups that keep no digit apart. -/
def RenderedWhole (g : Graph) (nested : Bool) (k : Nat) (r : Ref) (t : Text) : Prop :=
  ∃ x, Writes nested (g.Counts nested) k [[x]] t ∧ x.isRepeated = false ∧
    (nested = false → x.erase = g.flattened r)

/-- The text is read as one branch, with nothing in it exactly if the pattern is empty: the flattened tree unless
conditions are nested, with at most `k` plain groups that keep no digit apart. -/
def RenderedBranch (g : Graph) (nested : Bool) (k : Nat) (r : Ref) (t : Text) : Prop :=
  ∃ xs, Writes nested (g.Counts nested) k [xs] t ∧ (nested = false → eraseBranch xs = g.flattened r) ∧
    (isNothing (g.flattened r) = true ↔ xs = [])

variable {g : Graph} {nested : Bool} {r : Ref} {t : Text} {xs : List Item} {bs : List (List Item)}

/-- One branch renders the pattern if it shows what it should. -/
theorem Rendered.of_pieces (hxs : Writes nested (g.Counts nested) (needBranches (g.flattened r)) [xs] t)
    (herase : nested = false → eraseBranch xs = g.flattened r) (hempty : isNothing (g.flattened r) = true ↔ xs = [])
    (hsingle : ∀ {c}, g.Means .single r c → isNothing (g.flattened r) = false →
      (c = true ↔ ∃ x, xs = [x] ∧ x.isRepeated = false)) : g.Rendered nested r t := by
  refine ⟨[xs], hxs, fun h => (eraseBranches_singleton xs).trans (herase h),
    hempty.trans singleton_inj.symm, fun _ _ => ⟨xs, rfl⟩, fun hc hfilled => ?_⟩
  simpa only [singleton_inj] using hsingle hc hfilled

theorem Rendered.of_nothing (h : isNothing (g.flattened r) = true) : g.Rendered nested r [] := by
  refine .of_pieces (Writes.nil.mono fun _ => Nat.zero_le _) (fun _ => (Shape.isNothing_iff.1 h).symm)
    (iff_of_true h rfl) fun _ hfilled => ?_
  rw [h] at hfilled
  cases hfilled

/-- One piece without a suffix renders what can only be single. -/
theorem RenderedWhole.rendered (h : g.RenderedWhole nested (needBranches (g.flattened r)) r t)
    (hfilled : isNothing (g.flattened r) = false) (hsingle : ∀ {c}, g.Means .single r c → true = c) :
    g.Rendered nested r t := by
  obtain ⟨x, hwrites, hx, herase⟩ := h
  refine .of_pieces hwrites herase (iff_of_false (Bool.eq_false_iff.1 hfilled) (cons_ne_nil _ _)) ?_
  exact fun hc _ => iff_of_true (hsingle hc).symm ⟨x, rfl, hx⟩

/-- Branches that are not one piece without a suffix render what is not single. -/
theorem Rendered.of_several (hwrites : Writes nested (g.Counts nested) (needBranches (g.flattened r)) bs t)
    (herase : nested = false → eraseBranches bs = g.flattened r) (hfilled : isNothing (g.flattened r) = false)
    (hbs : bs ≠ [[]]) (hbranch : isOpenAlternation g r = false → ∃ xs, bs = [xs])
    (hpiece : ∀ x, bs = [[x]] → x.isRepeated = true) (hsingle : ¬ g.IsSingle r) : g.Rendered nested r t := by
  refine ⟨bs, hwrites, herase, iff_of_false (Bool.eq_false_iff.1 hfilled) hbs, fun _ => hbranch, ?_⟩
  intro c hc _
  refine iff_of_false ?_ ?_
  · rintro rfl
    exact hsingle hc
  · rintro ⟨x, hx, hrepeated⟩
    rw [hpiece x hx] at hrepeated
    cases hrepeated

theorem Rendered.whole (h : g.Rendered nested r t) (hsingle : g.IsSingle r)
    (hfilled : isNothing (g.flattened r) = false) : g.RenderedWhole nested (needBranches (g.flattened r)) r t := by
  obtain ⟨bs, hwrites, herase, -, -, hone⟩ := h
  obtain ⟨x, rfl, hx⟩ := (hone hsingle hfilled).1 rfl
  exact ⟨x, hwrites, hx, fun h => (eraseBranches_singleton [x]).symm.trans (herase h)⟩

theorem Rendered.isBranch (h : g.Rendered nested r t) (hcore : g.IsCore r) (hopen : isOpenAlternation g r = false) :
    g.RenderedBranch nested (needBranches (g.flattened r)) r t := by
  obtain ⟨bs, hwrites, herase, hempty, hbranch, -⟩ := h
  obtain ⟨xs, rfl⟩ := hbranch hcore hopen
  exact ⟨xs, hwrites, fun h => (eraseBranches_singleton xs).symm.trans (herase h),
    hempty.trans singleton_inj⟩

/-- Parentheses make one piece. -/
theorem Rendered.plain (h : g.Rendered nested r t) :
    g.RenderedWhole nested (needBranches (g.flattened r) + 1) r ("(?:" ++ t ++ ")") := by
  obtain ⟨bs, hwrites, herase, -⟩ := h
  exact ⟨_, hwrites.group isLegible_plain, rfl, fun h => (erase_plain bs).trans (herase h)⟩

/-- **What renders a pattern renders the node that only holds it.** -/
theorem Rendered.of_seesThrough {i : NodeId} {n : Node} (hn : g.node? i = some n)
    (hi : ¬ g.HasCycleFrom (some i)) (hr : n.SeesThrough g r) (h : g.Rendered nested r t) :
    g.Rendered nested (some i) t := by
  obtain ⟨bs, hwrites, herase, hempty, -, hsingle⟩ := h
  have hflat : g.flattened (some i) = g.flattened r := by rw [flattened_node hn hi, hr.flat_eq]
  refine ⟨bs, hflat ▸ hwrites, fun h => (herase h).trans hflat.symm, hflat ▸ hempty, fun hcore => ?_,
    fun hc hfilled => ?_⟩
  · -- such a node comes down to something below it
    exact absurd hr (hcore.not_seesThrough hn hi r)
  · rw [hflat] at hfilled
    exact hsingle (single_of_seesThrough hn hi hc hr hfilled) hfilled

/-- **What renders the core of a pattern renders the pattern.** -/
theorem Rendered.of_core {u : Ref} {e : Nat} {fl : Bool} (hr : ¬ g.HasCycleFrom r)
    (hu : g.meaning e .core r = .ok (u, fl)) (h : g.Rendered nested u t) : g.Rendered nested r t := by
  obtain ⟨bs, hwrites, herase, hempty, hbranch, hsingle⟩ := h
  obtain ⟨hflat, -, hcore⟩ := core_eq hr hu
  refine ⟨bs, hflat ▸ hwrites, fun h => (herase h).trans hflat, hflat ▸ hempty, fun hself => ?_, fun hc hfilled => ?_⟩
  · obtain ⟨e', fl', hself⟩ := hself
    cases eq_of_meaning_eq_ok hself hu
    exact hbranch hcore
  · exact hsingle (single_core e hr hc hfilled hu) (hflat ▸ hfilled)

end Graph

/-! ### Leaves -/

theorem eraseBranch_atoms (as : List Atom) : eraseBranch (as.map .atom) = [as.map .token] := by
  match as with
  | [a] | [] => rfl
  | a :: b :: as =>
    rw [eraseBranch_of_length_ne_one (by simp), erasedParts, erasePieces_eq_map, map_map, flatMap_map]
    exact congrArg (fun s => [s]) map_eq_flatMap.symm

variable {nested : Bool}

/-- A character is spelled before anything. -/
theorem IsSpelling.cons_char {ls : List Lexeme} (h : IsSpelling nested ls) (c : Char) :
    IsSpelling nested (.atom (.char c) :: ls) := by
  have hfit : (Lexeme.atom (.char c)).IsFit nested := (isLegible_char c).isFit nofun
  refine (IsSpelling.singleton hfit).append h fun l hl _ _ => ?_
  cases hl
  exact .of_takesSuffix nofun rfl

/-- **A text is spelled by its characters.** -/
theorem isSpelling_literal (t : Text) : IsSpelling nested ((t.map fun c => Atom.char c.read).map .atom) ∧
      spell ((t.map fun c => Atom.char c.read).map .atom) = escapeLiteral t := by
  induction t with
  | nil => exact ⟨.nil, rfl⟩
  | cons c t ih => exact ⟨ih.1.cons_char c.read, congrArg (escapeChar literalMeta c.read ++ ·) ih.2⟩

namespace Graph

variable {g : Graph} {i : NodeId} {l : Leaf} {t : Text}

/-- **A leaf is spelled by its atoms.** -/
theorem IsChecked.isSpelling_atoms (hg : g.IsChecked) (nested : Bool) (hn : g.node? i = some (.leaf l))
    (h : l.form = .ok t) : IsSpelling nested (l.atoms.map .atom) ∧ spell (l.atoms.map .atom) = t := by
  have hatom : ∀ {a : Atom}, (Lexeme.atom a).IsLegible →
      IsSpelling nested [.atom a] ∧ spell [.atom a] = a.form := fun h =>
    ⟨.singleton (h.isFit nofun), List.append_nil _⟩
  cases l with
  | literal text =>
    cases h
    exact isSpelling_literal text
  | raw => exact absurd hn hg.raw
  | character c =>
    cases h
    rw [← c.form_atom]
    exact hatom c.isLegible_atom
  | charClass c =>
    rw [Leaf.form] at h
    split at h
    · cases h
    · cases h
      have hkind : ∀ code, c.kind ≠ .undeclared code := fun _ => hg.kind hn
      rw [← CharClass.form_atom hkind]
      exact hatom (CharClass.isLegible_atom hkind (hg.category hn))
  | wildcard =>
    cases h
    exact hatom (.of_ending (v := []) rfl rfl (by decide) fun _ => rfl)
  | anchor =>
    rw [Leaf.form] at h
    split at h
    · next u hu =>
      cases h
      obtain ⟨hlegible, hform⟩ := AnchorKind.isLegible_atom hu
      exact hform ▸ hatom hlegible
    · cases h
  | backreference =>
    rw [Leaf.form] at h
    rw [Leaf.atoms, Backreference.atom]
    split at h
    · next hname =>
      cases h
      rw [if_pos hname]
      exact hatom (isLegible_backreference (hg.backreference hn hname))
    · next hname =>
      rw [if_neg hname]
      split at h
      · cases h
      · next hbounds =>
        cases h
        exact hatom (isLegible_numbered (by omega) (by omega))
  | comment =>
    rw [Leaf.form] at h
    rw [Leaf.atoms]
    split at h
    · next hempty =>
      cases h
      rw [if_pos hempty]
      exact ⟨.nil, rfl⟩
    · next hempty =>
      rw [if_neg hempty]
      split at h
      · cases h
      · next hclose =>
        cases h
        exact hatom (isLegible_comment hclose)

theorem flattened_leaf (hn : g.node? i = some (.leaf l)) (hi : ¬ g.HasCycleFrom (some i)) :
    g.flattened (some i) = [l.atoms.map .token] := flattened_node hn hi

theorem exists_atom_of_isSingle (hsingle : l.isSingle = true) (hempty : l.isEmpty = false) : ∃ a, l.atoms = [a] := by
  cases l with
  | literal text =>
    match text, hempty, hsingle with
    | [c], _, _ => exact ⟨_, rfl⟩
  | raw =>
    rw [Leaf.isSingle] at hsingle
    rw [Leaf.isEmpty, hsingle] at hempty
    cases hempty
  | comment =>
    rw [Leaf.isEmpty] at hempty
    exact ⟨_, by rw [Leaf.atoms, hempty]; rfl⟩
  | character | charClass | wildcard | anchor | backreference => exact ⟨_, rfl⟩

/-- A leaf that is one atom is single. -/
theorem isSingle_of_atoms (hraw : ∀ t, l ≠ .raw t) (h : l.atoms.length = 1) : l.isSingle = true := by
  cases l with
  | literal =>
    rw [Leaf.atoms, length_map] at h
    exact decide_eq_true (Nat.le_of_eq h)
  | raw t => exact absurd rfl (hraw t)
  | character | charClass | wildcard | anchor | backreference | comment => rfl

/-- **The text of a leaf renders it.** -/
theorem IsChecked.rendered_leaf (hg : g.IsChecked) (hn : g.node? i = some (.leaf l))
    (hi : ¬ g.HasCycleFrom (some i)) (h : l.form = .ok t) : g.Rendered nested (some i) t := by
  obtain ⟨hspelling, rfl⟩ := hg.isSpelling_atoms nested hn h
  have hflat := flattened_leaf hn hi
  have hempty : isNothing (g.flattened (some i)) = l.isEmpty := by
    rw [hflat, Shape.isNothing_singleton, isEmpty_map, Leaf.isEmpty_atoms]
  refine .of_pieces ((Writes.atoms hspelling).mono fun _ => Nat.zero_le _)
    (fun _ => (eraseBranch_atoms _).trans hflat.symm) ?_ fun {c} hc hfilled => ?_
  · rw [hempty, ← Leaf.isEmpty_atoms, List.isEmpty_iff, map_eq_nil_iff]
  have hl : l.isSingle = c := (means_node hn (by decide)).1 hc
  rw [hempty] at hfilled
  rw [← hl]
  constructor
  · intro hsingle
    obtain ⟨a, ha⟩ := exists_atom_of_isSingle hsingle hfilled
    exact ⟨.atom a, by rw [ha]; rfl, rfl⟩
  · rintro ⟨x, hx, -⟩
    have hlength := congrArg List.length hx
    rw [length_map] at hlength
    exact isSingle_of_atoms (fun t ht => hg.raw (ht ▸ hn)) hlength

/-! ### Patterns that need a group -/

/-- What is left of a quantifier that is not nothing. -/
theorem flattened_quantified {b : Bounds} {c : Ref} (hn : g.node? i = some (.quantified b c))
    (hi : ¬ g.HasCycleFrom (some i)) (hfilled : isNothing (g.flattened (some i)) = false) :
    isNothing (g.flattened c) = false ∧
      (b.isOnce = false → g.flattened (some i) = one (.repeated (g.flattened c) b)) := by
  rw [flattened_node hn hi, Node.flat] at hfilled ⊢
  split at hfilled
  · cases hfilled
  · next hnot =>
    rw [if_neg hnot]
    rw [Bool.or_eq_true, not_or, Bool.not_eq_true, Bool.not_eq_true] at hnot
    refine ⟨hnot.2, fun honce => ?_⟩
    rw [honce]
    rfl

theorem two_le_length_of_isOpenAlternation {r : Ref} (hr : ¬ g.HasCycleFrom r)
    (h : isOpenAlternation g r = true) : 2 ≤ (g.flattened r).length := by
  unfold isOpenAlternation at h
  split at h
  · next r₁ r₂ rest hderef =>
    obtain ⟨j, rfl, hj⟩ := Option.bind_eq_some_iff.1 hderef
    rw [flattened_node hj hr]
    exact g.two_le_length_alternation r₁ r₂ rest
  · cases h

/-- **A suffix cannot stand behind what is not single,** if that comes down to itself. -/
theorem IsChecked.takesSuffix_of_not_single (hg : g.IsChecked) {r : Ref}
    (hr : ¬ g.HasCycleFrom r) (hcore : g.IsCore r) (hfilled : isNothing (g.flattened r) = false)
    {e : Nat} {fl : Bool} (h : g.meaning e .single r = .ok (false, fl)) :
    Shape.takesSuffix (g.flattened r) = false := by
  rcases g.absent_or_node r with hderef | ⟨j, n, rfl, hj⟩
  · rw [flattened_absent hderef] at hfilled
    cases hfilled
  · obtain ⟨e', dr, -, heval⟩ := exists_eval_of_meaning hj h
    have hthrough := hcore.not_seesThrough hj hr
    cases n with
    | leaf l =>
      have hl : l.isSingle = false := congrArg Prod.fst (Except.ok.inj heval)
      rw [flattened_leaf hj hr]
      refine Shape.takesSuffix_singleton_of_length ?_
      cases l with
      | literal =>
        rw [Leaf.isSingle, decide_eq_false_iff_not] at hl
        rw [Leaf.atoms, length_map, length_map]
        omega
      | raw => exact absurd hj hg.raw
      | character | charClass | wildcard | anchor | backreference | comment => cases hl
    | concat cs =>
      rw [flattened_node hj hr, g.flat_concat] at hfilled ⊢
      match hrs : g.filled cs with
      | [] =>
        rw [hrs] at hfilled
        cases hfilled
      | [r] => exact absurd (.concat hrs) (hthrough r)
      | r :: r' :: rest =>
        have hpos : ∀ c ∈ g.filled cs, 0 < (Shape.parts (g.flattened c)).length := fun c hc =>
          length_pos_iff.2 fun hnil => by
            have := g.isNothing_of_mem_filled hc
            rw [Shape.parts_eq_nil_iff.1 hnil] at this
            cases this
        rw [hrs] at hpos
        have h₁ := hpos r (by simp)
        have h₂ := hpos r' (by simp)
        rw [Shape.sequence_of_length_ne_one (by simp)]
        refine Shape.takesSuffix_singleton_of_length ?_
        simp only [map_cons, flatMap_cons, length_append]
        omega
    | alternation cs =>
      match cs with
      | [] =>
        rw [flattened_node hj hr] at hfilled
        cases hfilled
      | [r] => exact absurd (.alternation r) (hthrough r)
      | r :: r' :: rest =>
        rw [flattened_node hj hr]
        have hlength := g.two_le_length_alternation r r' rest
        exact Shape.takesSuffix_of_length (by omega)
    | quantified b c =>
      have honce : b.isOnce = false := Bool.eq_false_iff.2 fun h => hthrough c (.once h c)
      rw [(flattened_quantified hj hr hfilled).2 honce]
      rfl
    | group c =>
      have habsent : g.deref? c = none := by
        cases hc : g.isAbsent c with
        | true => exact Option.isNone_iff_eq_none.1 hc
        | false => exact absurd (.group hc) (hthrough c)
      rw [flattened_node hj hr, Node.flat, flattened_absent habsent] at hfilled
      cases hfilled
    | set | enclosed | conditional | modified => cases heval

/-! ### Sets -/

variable {s : CharacterSet Ref} {ranges subtracted : List (Range Character)}

theorem IsChecked.isInner_memberForm (hg : g.IsChecked) {m : Ref} {u : Text}
    (hbracket : g.character? m ≠ some (.plain 91)) (h : g.memberForm? m = some u) : u.IsInner := by
  obtain ⟨j, rfl, ⟨c, hj, rfl⟩ | ⟨c, hj, rfl⟩⟩ := exists_leaf_of_memberForm? h
  · refine Character.isInner_form fun hplain => hbracket ?_
    rw [character?, show g.deref? (some j) = _ from hj, hplain]
  · exact CharClass.isInner_form (hg.category hj)

theorem IsChecked.isInner_ranges (hg : g.IsChecked) (hn : g.node? i = some (.set s))
    {rs : List (Range Ref)} (hrs : ∀ r ∈ rs, r.first ∈ s.refs ∧ r.last ∈ s.refs)
    (h : CharacterSet.resolveRanges g rs = .ok ranges) : ∀ c ∈ ranges, c.form.IsInner := by
  intro c hc
  obtain ⟨r, hr, hfirst, hlast⟩ := exists_mem_of_forall₂ (CharacterSet.character?_of_resolveRanges h).flip hc
  refine Range.isInner_form (fun hplain => ?_) fun hplain => ?_
  · exact hg.bracket hn (hrs r hr).1 (hplain ▸ hfirst)
  · exact hg.bracket hn (hrs r hr).2 (hplain ▸ hlast)

/-- **The text of a set between brackets is legible.** -/
theorem IsChecked.isLegible_set (hg : g.IsChecked) (hn : g.node? i = some (.set s))
    (hranges : CharacterSet.resolveRanges g s.ranges = .ok ranges)
    (hsubtracted : CharacterSet.resolveRanges g s.subtractedRanges = .ok subtracted)
    (h : s.bracketed g ranges subtracted = .ok t) : (Lexeme.atom (.bracket t)).IsLegible := by
  refine CharacterSet.isLegible_bracketed h (hg.isInner_ranges hn ?_ hranges)
    (hg.isInner_ranges hn ?_ hsubtracted) fun m hm u hu => ?_
  · intro r hr
    constructor <;> simp only [CharacterSet.refs, mem_append, mem_flatMap]
    · exact .inl (.inl (.inl ⟨r, hr, by simp⟩))
    · exact .inl (.inl (.inl ⟨r, hr, by simp⟩))
  · intro r hr
    constructor <;> simp only [CharacterSet.refs, mem_append, mem_flatMap]
    · exact .inl (.inr ⟨r, hr, by simp⟩)
    · exact .inl (.inr ⟨r, hr, by simp⟩)
  · refine hg.isInner_memberForm (hg.bracket hn ?_) hu
    simp only [CharacterSet.refs, mem_append]
    rcases mem_append.1 hm with hm | hm
    · exact .inl (.inl (.inr hm))
    · exact .inr hm

theorem flattened_member {r : Ref} (hr : ¬ g.HasCycleFrom r) (h : g.memberForm? r ≠ none) :
    g.flattened r = one (.token (g.memberAtom r)) ∧ g.IsSingle r := by
  obtain ⟨t, h⟩ := Option.ne_none_iff_exists'.1 h
  obtain ⟨j, rfl, ⟨c, hj, -⟩ | ⟨c, hj, -⟩⟩ := exists_leaf_of_memberForm? h
  all_goals
    rw [memberAtom, show g.deref? (some j) = _ from hj]
    exact ⟨flattened_leaf hj hr, 1, false, meaning_node hj 0⟩

theorem flattened_set (hn : g.node? i = some (.set s)) (hi : ¬ g.HasCycleFrom (some i))
    (hbase : s.hasBase = true) {a : Atom} (ha : s.atom g = .ok a) : g.flattened (some i) = one (.token a) := by
  rw [flattened_node hn hi, Node.flat, hbase, ha]
  rfl

theorem isNothing_of_hasBase (hn : g.node? i = some (.set s)) (hi : ¬ g.HasCycleFrom (some i))
    (hbase : s.hasBase = true) : isNothing (g.flattened (some i)) = false := by
  rw [flattened_node hn hi, Node.isNothing_set, hbase]
  rfl

section

variable (hg : g.IsChecked) (hn : g.node? i = some (.set s)) (hi : ¬ g.HasCycleFrom (some i))
  (hbase : s.hasBase = true) (hranges : CharacterSet.resolveRanges g s.ranges = .ok ranges)
  (hsubtracted : CharacterSet.resolveRanges g s.subtractedRanges = .ok subtracted)

include hg hn hi hbase hranges hsubtracted

/-- **The text of what is written in place of a set renders the set.** -/
theorem IsChecked.rendered_only {r : Ref}
    (honly : s.only? ranges = some r) (h : g.Rendered nested r t) : g.Rendered nested (some i) t := by
  obtain ⟨hmem, hform⟩ := hg.isTidy.memberForm?_of_only? hn hranges honly
  obtain ⟨hflat, hsingle⟩ := flattened_member (not_hasCycleFrom_of_mem_refs hn hi r hmem) hform
  have hatom : s.atom g = .ok (g.memberAtom r) := by
    refine bind_eq_ok.2 ⟨ranges, hranges, bind_eq_ok.2 ⟨subtracted, hsubtracted, ?_⟩⟩
    rw [honly]
    rfl
  have hself := (flattened_set hn hi hbase hatom).trans hflat.symm
  obtain ⟨x, hwrites, hx, herase⟩ := h.whole hsingle (by rw [hflat]; rfl)
  exact RenderedWhole.rendered ⟨x, hself ▸ hwrites, hx, fun h => (herase h).trans hself.symm⟩
    (isNothing_of_hasBase hn hi hbase) (means_node hn (by decide)).1

/-- **The text of a set between brackets renders it.** -/
theorem IsChecked.rendered_bracketed (honly : s.only? ranges = none) (h : s.bracketed g ranges subtracted = .ok t) :
    g.Rendered nested (some i) t := by
  have hatom : s.atom g = .ok (.bracket t) := by
    refine bind_eq_ok.2 ⟨ranges, hranges, bind_eq_ok.2 ⟨subtracted, hsubtracted, ?_⟩⟩
    rw [honly, h]
    rfl
  have hwrites : Writes nested (g.Counts nested) 0 [[.atom (.bracket t)]] t :=
    .atom (hg.isLegible_set hn hranges hsubtracted h)
  exact RenderedWhole.rendered ⟨_, hwrites.mono fun _ => Nat.zero_le _, rfl,
    fun _ => (flattened_set hn hi hbase hatom).symm⟩ (isNothing_of_hasBase hn hi hbase) (means_node hn (by decide)).1

end

end Graph
end RegexBuilder
