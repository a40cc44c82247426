/-
# How a text is read along a tree

A tree may match a text in several ways: by different branches of an alternation, or by different splits of the text
among the children of a sequence or the rounds of a repetition. A `Derivation` is one way in full. Where each part
of the tree splits its texts in one way only (`Tree.IsSharp`), every text has one (`Tree.existsUnique_derives`).
-/

import RegexBuilder.Proofs.TreeLanguage

namespace RegexBuilder

/-- A way to read a text along a tree: the text at a leaf, one derivation after another at a sequence or a repetition,
and the index of a branch at an alternation. -/
inductive Derivation where
  | text (w : Text)
  | nil
  | cons (first rest : Derivation)
  | branch (index : ℕ) (d : Derivation)

namespace Tree

mutual

/-- The derivation reads the text along the tree. -/
inductive Derives : Tree → Text → Derivation → Prop where
  | leaf {l : Leaf} {w : Text} (h : w ∈ l.language) : Derives (.leaf l) w (.text w)
  | set {s : CharacterSet Element} {w : Text} (h : w ∈ s.language) : Derives (.set s) w (.text w)
  | concat {ts : List Tree} {us : List Text} {w : Text} {d : Derivation} (h : DerivesEach ts us d)
      (hw : us.flatten = w) : Derives (.concat ts) w d
  | alternation {ts : List Tree} {k : ℕ} {t : Tree} {w : Text} {d : Derivation} (hk : ts[k]? = some t)
      (h : Derives t w d) : Derives (.alternation ts) w (.branch k d)
  | quantified {b : Bounds} {t : Tree} {us : List Text} {w : Text} {d : Derivation} (hb : b.Allow us.length)
      (h : DerivesEach (List.replicate us.length t) us d) (hw : us.flatten = w) : Derives (.quantified b t) w d
  | group {t : Tree} {w : Text} {d : Derivation} (h : Derives t w d) : Derives (.group t) w d

/-- The derivations, one after another, read the texts along the trees. -/
inductive DerivesEach : List Tree → List Text → Derivation → Prop where
  | nil : DerivesEach [] [] .nil
  | cons {t : Tree} {ts : List Tree} {u : Text} {us : List Text} {d e : Derivation} (h : Derives t u d)
      (h' : DerivesEach ts us e) : DerivesEach (t :: ts) (u :: us) (.cons d e)

end

/-! ### The parts of a tree -/

/-- The trees right below the root. -/
def children : Tree → List Tree
  | existing _ | leaf _ | set _ => []
  | concat ts | alternation ts => ts
  | quantified _ t | group t | enclosed _ t | modified _ _ t => [t]
  | conditional _ expression yes no => [expression, yes, no]

/-- The second tree stands in the first. -/
inductive Part : Tree → Tree → Prop where
  | self (t : Tree) : Part t t
  | child {t c s : Tree} (hc : c ∈ t.children) (h : Part c s) : Part t s

variable {c : Tree} {ws : List Text} {n : ℕ}

theorem sizeOf_lt_of_mem_children {t : Tree} (h : c ∈ t.children) : sizeOf c < sizeOf t := by
  cases t with
  | existing | leaf | set => cases h
  | concat ts | alternation ts =>
    have : sizeOf c < sizeOf ts := List.sizeOf_lt_of_mem h
    simp only [concat.sizeOf_spec, alternation.sizeOf_spec]
    omega
  | quantified | group | enclosed | modified =>
    cases List.mem_singleton.1 h
    simp only [quantified.sizeOf_spec, group.sizeOf_spec, enclosed.sizeOf_spec, modified.sizeOf_spec]
    omega
  | conditional =>
    simp only [children, List.mem_cons, List.not_mem_nil, or_false] at h
    simp only [conditional.sizeOf_spec]
    rcases h with rfl | rfl | rfl <;> omega

/-- Induction from the children to the tree. -/
theorem children_induction {motive : Tree → Prop} (h : ∀ t, (∀ c ∈ t.children, motive c) → motive t) (t : Tree) :
    motive t :=
  h t fun c hc =>
    have := sizeOf_lt_of_mem_children hc
    children_induction h c
termination_by sizeOf t

/-! ### Derivations and languages -/

variable {t u : Tree} {ts us : List Tree} {w : Text}

/-- The texts belong to the trees, each to its own. -/
def Reads (ts : List Tree) (ws : List Text) : Prop := List.Forall₂ (fun t w => w ∈ t.language) ts ws

/-- A text of a sequence is put together from texts of the children. -/
theorem mem_sequenceLanguage : w ∈ sequenceLanguage ts ↔ ∃ ws, Reads ts ws ∧ ws.flatten = w := by
  induction ts generalizing w with
  | nil =>
    constructor
    · rintro rfl
      exact ⟨[], .nil, rfl⟩
    · rintro ⟨_, ⟨⟩, rfl⟩
      rfl
  | cons t ts ih =>
    rw [sequenceLanguage, Language.mem_mul]
    constructor
    · rintro ⟨a, ha, b, hb, rfl⟩
      obtain ⟨ws, hws, rfl⟩ := ih.1 hb
      exact ⟨a :: ws, .cons ha hws, rfl⟩
    · rintro ⟨_, ⟨⟩ | ⟨ha, hws⟩, rfl⟩
      exact ⟨_, ha, _, ih.2 ⟨_, hws, rfl⟩, rfl⟩

theorem reads_replicate : Reads (List.replicate ws.length t) ws ↔ ∀ w ∈ ws, w ∈ t.language := by
  induction ws with
  | nil => exact iff_of_true .nil fun _ h => nomatch h
  | cons w ws ih =>
    rw [List.length_cons, List.replicate_succ, Reads, List.forall₂_cons, List.forall_mem_cons]
    exact and_congr_right fun _ => ih

/-- A text of a repetition is put together from as many texts of the child as the bounds allow. -/
theorem mem_language_quantified {b : Bounds} : w ∈ (quantified b t).language ↔
    ∃ ws : List Text, b.Allow ws.length ∧ (∀ w ∈ ws, w ∈ t.language) ∧ ws.flatten = w := by
  constructor
  · rintro ⟨n, hn, hw⟩
    obtain ⟨ws, rfl, rfl, hws⟩ := Language.mem_pow.1 hw
    exact ⟨ws, hn, hws, rfl⟩
  · rintro ⟨ws, hn, hws, rfl⟩
    exact ⟨ws.length, hn, Language.mem_pow.2 ⟨ws, rfl, rfl, hws⟩⟩

/-- Trees that derive their texts derive one text after another. -/
theorem derivesEach_iff (h : ∀ t ∈ ts, ∀ w, (∃ d, t.Derives w d) ↔ w ∈ t.language) : (∃ d, DerivesEach ts ws d)
    ↔ Reads ts ws := by
  induction ts generalizing ws with
  | nil =>
    constructor
    · rintro ⟨_, ⟨⟩⟩
      exact .nil
    · rintro ⟨⟩
      exact ⟨.nil, .nil⟩
  | cons t ts ih =>
    obtain ⟨ht, hts⟩ := List.forall_mem_cons.1 h
    constructor
    · rintro ⟨_, hd | ⟨hd, he⟩⟩
      exact .cons ((ht _).1 ⟨_, hd⟩) ((ih hts).1 ⟨_, he⟩)
    · rintro (_ | ⟨hw, hws⟩)
      obtain ⟨d, hd⟩ := (ht _).2 hw
      obtain ⟨e, he⟩ := (ih hts).2 hws
      exact ⟨.cons d e, .cons hd he⟩

/-- **A tree has a text exactly if there is a derivation of it.** -/
theorem derives_iff (t : Tree) : ∀ w, (∃ d, t.Derives w d) ↔ w ∈ t.language := by
  induction t using children_induction with
  | h t ih =>
    intro w
    cases t with
    | leaf =>
      refine ⟨fun ⟨_, hd⟩ => ?_, fun h => ⟨_, .leaf h⟩⟩
      cases hd with
      | leaf h => exact h
    | set =>
      refine ⟨fun ⟨_, hd⟩ => ?_, fun h => ⟨_, .set h⟩⟩
      cases hd with
      | set h => exact h
    | concat =>
      rw [language, mem_sequenceLanguage]
      constructor
      · rintro ⟨d, hd⟩
        cases hd with
        | concat h hw => exact ⟨_, (derivesEach_iff ih).1 ⟨d, h⟩, hw⟩
      · rintro ⟨ws, hws, hw⟩
        obtain ⟨d, hd⟩ := (derivesEach_iff ih).2 hws
        exact ⟨d, .concat hd hw⟩
    | alternation =>
      rw [language, mem_choiceLanguage]
      constructor
      · rintro ⟨_, hd⟩
        cases hd with
        | alternation hk h =>
          have ht := List.mem_of_getElem? hk
          exact ⟨_, ht, (ih _ ht w).1 ⟨_, h⟩⟩
      · rintro ⟨t, ht, hw⟩
        obtain ⟨d, hd⟩ := (ih t ht w).2 hw
        obtain ⟨k, hk⟩ := List.mem_iff_getElem?.1 ht
        exact ⟨.branch k d, .alternation hk hd⟩
    | quantified b t =>
      have ht : ∀ n, ∀ s ∈ List.replicate n t, ∀ w, (∃ d, s.Derives w d) ↔ w ∈ s.language := fun n s hs =>
        ih s (List.mem_singleton.2 (List.eq_of_mem_replicate hs))
      rw [mem_language_quantified]
      constructor
      · rintro ⟨d, hd⟩
        cases hd with
        | quantified hb h hw => exact ⟨_, hb, reads_replicate.1 ((derivesEach_iff (ht _)).1 ⟨d, h⟩), hw⟩
      · rintro ⟨ws, hb, hws, hw⟩
        obtain ⟨d, hd⟩ := (derivesEach_iff (ht _)).2 (reads_replicate.2 hws)
        exact ⟨d, .quantified hb hd hw⟩
    | group t =>
      rw [language, ← ih t (List.mem_singleton_self t) w]
      refine ⟨fun ⟨d, hd⟩ => ?_, fun ⟨d, h⟩ => ⟨d, .group h⟩⟩
      cases hd with
      | group h => exact ⟨d, h⟩
    | existing | enclosed | conditional | modified =>
      exact iff_of_false (fun ⟨_, h⟩ => nomatch h) (Language.notMem_zero w)

/-! ### Texts that split in one way -/

/-- The tree gives each text to its children in one way: no two branches of an alternation share a text, and a sequence
or a repetition puts a text together in one way. -/
def SplitsOnce : Tree → Prop
  | concat ts => ∀ us vs, Reads ts us → Reads ts vs → us.flatten = vs.flatten → us = vs
  | alternation ts => ts.Pairwise fun t u => Disjoint t.language u.language
  | quantified b t => ∀ us vs : List Text, b.Allow us.length → b.Allow vs.length → (∀ u ∈ us, u ∈ t.language) →
      (∀ v ∈ vs, v ∈ t.language) → us.flatten = vs.flatten → us = vs
  | existing _ | leaf _ | set _ | group _ | enclosed _ _ | conditional _ _ _ _ | modified _ _ _ => True

/-- Every part of the tree splits its texts in one way. -/
def IsSharp (t : Tree) : Prop := ∀ s, t.Part s → s.SplitsOnce

/-- A tree that splits its texts in one way is sharp if its children are. -/
theorem IsSharp.of_children (h : t.SplitsOnce) (hc : ∀ c ∈ t.children, c.IsSharp) : t.IsSharp := by
  intro s hs
  cases hs with
  | self => exact h
  | child hmem hs => exact hc _ hmem s hs

theorem IsSharp.splitsOnce (h : t.IsSharp) : t.SplitsOnce := h t (.self t)

theorem IsSharp.child (h : t.IsSharp) (hc : c ∈ t.children) : c.IsSharp := fun s hs => h s (.child hc hs)

/-- Children with one derivation for a text at most have one derivation for a row of texts at most. -/
theorem DerivesEach.unique (h : ∀ t ∈ ts, ∀ {w d d'}, t.Derives w d → t.Derives w d' → d = d') {d d' : Derivation}
    (hd : DerivesEach ts ws d) (hd' : DerivesEach ts ws d') : d = d' := by
  induction ts generalizing ws d d' with
  | nil =>
    cases hd
    cases hd'
    rfl
  | cons t ts ih =>
    obtain ⟨ht, hts⟩ := List.forall_mem_cons.1 h
    cases hd with
    | cons hd he =>
      cases hd' with
      | cons hd' he' => rw [ht hd hd', ih hts he he']

/-- **In a sharp tree a text has one derivation at most.** -/
theorem Derives.unique : t.IsSharp → ∀ {w d d'}, t.Derives w d → t.Derives w d' → d = d' := by
  have hreads : ∀ {ts ws d}, DerivesEach ts ws d → Reads ts ws := fun h =>
    (derivesEach_iff fun t _ => derives_iff t).1 ⟨_, h⟩
  induction t using children_induction with
  | h t ih =>
    intro hsharp w d d' hd hd'
    have hunique : ∀ c ∈ t.children, ∀ {w d d'}, c.Derives w d → c.Derives w d' → d = d' := fun c hc =>
      ih c hc (hsharp.child hc)
    cases hd with
    | leaf | set =>
      cases hd'
      rfl
    | concat h hw =>
      cases hd' with
      | concat h' hw' =>
        cases hsharp.splitsOnce _ _ (hreads h) (hreads h') (hw.trans hw'.symm)
        exact h.unique hunique h'
    | @alternation ts k t w d hk h =>
      cases hd' with
      | @alternation _ k' t' _ d' hk' h' =>
        have hw := (derives_iff t w).1 ⟨d, h⟩
        have hw' := (derives_iff t' w).1 ⟨d', h'⟩
        have hkk' : k = k' := by
          -- two branches would have the text in common
          obtain ⟨hlt, rfl⟩ := List.getElem?_eq_some_iff.1 hk
          obtain ⟨hlt', rfl⟩ := List.getElem?_eq_some_iff.1 hk'
          have hdisjoint := List.pairwise_iff_getElem.1 hsharp.splitsOnce
          rcases Nat.lt_trichotomy k k' with hlt' | heq | hlt'
          · exact absurd hw' (Set.disjoint_left.1 (hdisjoint k k' _ _ hlt') hw)
          · exact heq
          · exact absurd hw (Set.disjoint_left.1 (hdisjoint k' k _ _ hlt') hw')
        subst hkk'
        cases hk.symm.trans hk'
        rw [hunique t (List.mem_of_getElem? hk) h h']
    | quantified hb h hw =>
      cases hd' with
      | quantified hb' h' hw' =>
        cases hsharp.splitsOnce _ _ hb hb' (reads_replicate.1 (hreads h)) (reads_replicate.1 (hreads h'))
          (hw.trans hw'.symm)
        exact h.unique (fun c hc => hunique c (List.mem_singleton.2 (List.eq_of_mem_replicate hc))) h'
    | group h =>
      cases hd' with
      | group h' => exact hunique _ (List.mem_singleton_self _) h h'

/-- **Every text of a sharp tree has one derivation.** -/
theorem existsUnique_derives (h : t.IsSharp) (hw : w ∈ t.language) : ∃! d, t.Derives w d := by
  obtain ⟨d, hd⟩ := (derives_iff t w).2 hw
  exact ⟨d, hd, fun d' hd' => hd'.unique h hd⟩

/-! ### Texts of one length -/

/-- All texts of the tree have `n` glyphs. -/
def HasLength (t : Tree) (n : ℕ) : Prop := ∀ w ∈ t.language, w.length = n

theorem hasLength_literal (w : Text) : (literal w).HasLength w.length := by
  rintro _ rfl
  rfl

theorem splitsOnce_nil : (concat []).SplitsOnce := by
  rintro _ _ ⟨⟩ ⟨⟩ _
  rfl

theorem splitsOnce_singleton (t : Tree) : (concat [t]).SplitsOnce := by
  rintro _ _ (_ | ⟨_, ⟨⟩⟩) (_ | ⟨_, ⟨⟩⟩) h
  simpa using h

/-- Before other children a child whose texts have one length takes the same of every text. -/
theorem splitsOnce_cons (ht : t.HasLength n) (hts : (concat ts).SplitsOnce) : (concat (t :: ts)).SplitsOnce := by
  rintro _ _ (_ | @⟨_, u, _, us, hu, hus⟩) (_ | @⟨_, v, _, vs, hv, hvs⟩) h
  rw [List.flatten_cons, List.flatten_cons] at h
  obtain ⟨rfl, hrest⟩ := List.append_inj h ((ht u hu).trans (ht v hv).symm)
  rw [hts us vs hus hvs hrest]

/-- So does one that stands at the end. -/
theorem splitsOnce_pair (hu : u.HasLength n) : (concat [t, u]).SplitsOnce := by
  rintro _ _ (_ | ⟨_, _ | @⟨_, v, _, _, hv, ⟨⟩⟩⟩) (_ | ⟨_, _ | @⟨_, v', _, _, hv', ⟨⟩⟩⟩) h
  simp only [List.flatten_cons, List.flatten_nil, List.append_nil] at h
  obtain ⟨rfl, rfl⟩ := List.append_inj' h ((hu v hv).trans (hu v' hv').symm)
  rfl

/-- Texts of one glyph each are the glyphs of what they are put together to. -/
theorem eq_map_flatten (h : ∀ w ∈ ws, w.length = 1) : ws = ws.flatten.map fun g => [g] := by
  induction ws with
  | nil => rfl
  | cons w ws ih =>
    obtain ⟨hw, hws⟩ := List.forall_mem_cons.1 h
    obtain ⟨g, rfl⟩ := List.length_eq_one_iff.1 hw
    rw [List.flatten_cons, List.map_append, ← ih hws]
    rfl

/-- A repetition of single glyphs splits in one way. -/
theorem splitsOnce_quantified (ht : t.HasLength 1) (b : Bounds) : (quantified b t).SplitsOnce := by
  intro us vs _ _ hus hvs h
  rw [eq_map_flatten fun u hu => ht u (hus u hu), eq_map_flatten fun v hv => ht v (hvs v hv), h]

end Tree
end RegexBuilder
