/-
# How lexemes are nested

What the reader takes between two parentheses that belong together is one level with everything closed in it, and
such lexemes are built in five ways (`Level.Reads`). Whatever is read completely is built so
(`exists_reads_of_branches?`), and facts about all written patterns follow by induction on it, without the stack of
the reader.
-/

import RegexBuilder.Proofs.Reading

namespace RegexBuilder

open List Option

/-- The lexeme opens parentheses. -/
def Lexeme.isOpening : Lexeme → Bool
  | opening _ | test _ => true
  | atom _ | bar | close | times _ => false

/-- The lexeme that opens the parentheses. -/
def Head.lexeme : Head → Lexeme
  | group opening => .opening opening
  | conditional test => .test test

/-- The lexemes are read as the level, and every parenthesis among them is closed. -/
inductive Level.Reads : Level → List Lexeme → Prop
  | start : Reads {} []
  | atom {l : Level} {ls : List Lexeme} (h : Reads l ls) (a : Atom) :
    Reads (l.append [.atom a]) (ls ++ [Lexeme.atom a])
  | bar {l : Level} {ls : List Lexeme} (h : Reads l ls) : Reads ⟨l.all, []⟩ (ls ++ [Lexeme.bar])
  | times {bs : List (List Item)} {xs : List Item} {x : Item} {ls : List Lexeme}
    (h : Reads ⟨bs, xs ++ [x]⟩ ls) (hx : x.isRepeated = false) (b : Bounds) :
    Reads ⟨bs, xs ++ [Item.repeated x b]⟩ (ls ++ [Lexeme.times b])
  | enclosed {l m : Level} {ls ms : List Lexeme} (h : Reads l ls) (hm : Reads m ms) (k : Head) :
    Reads (l.append [k.item m.all]) (ls ++ k.lexeme :: (ms ++ [Lexeme.close]))

/-- The lexemes are what stands before the innermost of the open levels. -/
inductive Reader.ReadsOuter : List (Head × Level) → List Lexeme → Prop
  | nil : ReadsOuter [] []
  | cons {o : List (Head × Level)} {l : Level} {ls ms : List Lexeme} (h : ReadsOuter o ls)
    (hl : l.Reads ms) (k : Head) : ReadsOuter ((k, l) :: o) (ls ++ (ms ++ [k.lexeme]))

/-- The lexemes are those that were taken to come to the state. -/
def Reader.Reads (s : Reader) (ls : List Lexeme) : Prop :=
  ∃ ms ns, ls = ms ++ ns ∧ ReadsOuter s.outer ms ∧ s.level.Reads ns

namespace Reader

variable {s s' : Reader} {ls ms : List Lexeme}

theorem exists_of_suffix? {l l' : Level} {b : Bounds} (h : l.suffix? b = some l') :
    ∃ xs x, l = ⟨l.branches, xs ++ [x]⟩ ∧ x.isRepeated = false ∧
      l' = ⟨l.branches, xs ++ [Item.repeated x b]⟩ := by
  obtain ⟨bs, ps⟩ := l
  unfold Level.suffix? at h
  split at h
  · next x hlast =>
    obtain ⟨xs, rfl⟩ := List.getLast?_eq_some_iff.1 hlast
    split at h
    · cases h
    · next hx =>
      cases h
      refine ⟨xs, x, rfl, Bool.eq_false_iff.2 hx, ?_⟩
      rw [dropLast_concat]
  · cases h

/-- **One lexeme is added to those that were taken.** -/
theorem Reads.step {l : Lexeme} (h : s.Reads ls) (hs : s.step l = some s') : s'.Reads (ls ++ [l]) := by
  obtain ⟨ms, ns, rfl, houter, hlevel⟩ := h
  have henter : ∀ k : Head, k.lexeme = l → s' = s.enter k → s'.Reads (ms ++ ns ++ [l]) := by
    rintro k rfl rfl
    refine ⟨_, [], ?_, houter.cons hlevel k, .start⟩
    rw [List.append_nil, append_assoc]
  cases l with
  | atom a =>
    cases hs
    exact ⟨ms, _, append_assoc .., houter, hlevel.atom a⟩
  | opening t => exact henter (.group t) rfl (Option.some.inj hs).symm
  | test t => exact henter (.conditional t) rfl (Option.some.inj hs).symm
  | bar =>
    cases hs
    exact ⟨ms, _, append_assoc .., houter, hlevel.bar⟩
  | close =>
    obtain ⟨level, outer⟩ := s
    cases houter with
    | nil => cases hs
    | @cons o l ls' ms' houter hl k =>
      cases hs
      refine ⟨ls', _, ?_, houter, hl.enclosed hlevel k⟩
      simp only [append_assoc, cons_append, List.nil_append]
  | times b =>
    obtain ⟨l', hl', rfl⟩ := map_eq_some_iff.1 hs
    obtain ⟨xs, x, hself, hx, rfl⟩ := exists_of_suffix? hl'
    rw [hself] at hlevel
    exact ⟨ms, _, append_assoc .., houter, hlevel.times hx b⟩

/-- **All lexemes are added to those that were taken.** -/
theorem Reads.run (h : s.Reads ls) (hs : s.run ms = some s') : s'.Reads (ls ++ ms) := by
  induction ms generalizing s ls with
  | nil =>
    cases hs
    rw [List.append_nil]
    exact h
  | cons l ms ih =>
    rw [← singleton_append, run_append] at hs
    obtain ⟨s₁, hs₁, hs⟩ := bind_eq_some_iff.1 hs
    rw [run_singleton] at hs₁
    have hrest := ih (h.step hs₁) hs
    rwa [append_assoc, singleton_append] at hrest

end Reader

/-- **What is read completely is the lexemes of one level.** -/
theorem exists_reads_of_branches? {ls : List Lexeme} {bs : List (List Item)}
    (h : branches? ls = some bs) : ∃ l : Level, l.Reads ls ∧ l.all = bs := by
  unfold branches? at h
  split at h
  · next l hrun =>
    have hstart : Reader.Reads {} [] := ⟨[], [], rfl, .nil, .start⟩
    obtain ⟨ms, ns, hls, houter, hlevel⟩ := hstart.run hrun
    cases houter
    rw [List.nil_append, List.nil_append] at hls
    exact ⟨l, hls ▸ hlevel, Option.some.inj h⟩
  · cases h

namespace Level.Reads

variable {l : Level} {ls : List Lexeme}

section

variable (h : l.Reads ls)

include h

/-- **Lexemes of a level are read as that level,** whatever is open around it. -/
theorem run_eq (o : List (Head × Level)) : Reader.run ⟨{}, o⟩ ls = some ⟨l, o⟩ := by
  induction h generalizing o with
  | start => rfl
  | atom h a ih | bar h ih =>
    rw [Reader.run_append, ih, bind_some, Reader.run_singleton]
    rfl
  | times h hx b ih =>
    rw [Reader.run_append, ih, bind_some, Reader.run_singleton]
    simp [Reader.step, Level.suffix?, hx]
  | @enclosed l m ls ms h hm k ih ihm =>
    have hopen : (Reader.mk l o).step k.lexeme = some ⟨{}, (k, l) :: o⟩ := by cases k <;> rfl
    rw [Reader.run_append, ih, bind_some, ← singleton_append, Reader.run_append,
      Reader.run_singleton, hopen, bind_some, Reader.run_append, ihm, bind_some, Reader.run_singleton]
    rfl

theorem branches?_eq : branches? ls = some l.all := by
  unfold branches?
  rw [h.run_eq []]

/-- **The parenthesis that closes a level is the first one that is not closed in it.** -/
theorem append_close_inj {l' : Level} {ls' rest rest' : List Lexeme}
    (h' : l'.Reads ls') (heq : ls ++ Lexeme.close :: rest = ls' ++ Lexeme.close :: rest') :
    ls = ls' ∧ rest = rest' := by
  have hlonger : ∀ {l l' : Level} {ls ms : List Lexeme}, l.Reads ls →
      ¬ l'.Reads (ls ++ Lexeme.close :: ms) := by
    intro l l' ls ms h h'
    have hrun := h'.run_eq []
    rw [← singleton_append, Reader.run_append, h.run_eq, bind_some, Reader.run_append,
      Reader.run_singleton] at hrun
    cases hrun
  rcases append_eq_append_iff.1 heq with ⟨as, rfl, hrest⟩ | ⟨as, rfl, hrest⟩
  · cases as with
    | nil => exact ⟨(List.append_nil _).symm, (List.cons.inj hrest).2⟩
    | cons =>
      obtain ⟨rfl, -⟩ := List.cons.inj hrest
      exact absurd h' (hlonger h)
  · cases as with
    | nil => exact ⟨List.append_nil _, (List.cons.inj hrest).2.symm⟩
    | cons =>
      obtain ⟨rfl, -⟩ := List.cons.inj hrest
      exact absurd h (hlonger h')

theorem ne_times {m : Lexeme} (hm : m ∈ ls.head?) (b : Bounds) : m ≠ .times b := by
  rintro rfl
  obtain ⟨ms, rfl⟩ := List.head?_eq_some_iff.1 hm
  cases h.run_eq []

/-- A level ends with everything closed. -/
theorem isOpening_getLast {m : Lexeme} (hm : m ∈ ls.getLast?) : m.isOpening = false := by
  have hlast : ∀ {n : Lexeme} {ls : List Lexeme}, n.isOpening = false →
      m ∈ (ls ++ [n]).getLast? → m.isOpening = false := by
    intro n ls hn hm
    rw [getLast?_concat] at hm
    cases hm
    exact hn
  cases h with
  | start => cases hm
  | atom | bar | times => exact hlast rfl hm
  | enclosed =>
    rw [← cons_append, ← append_assoc] at hm
    exact hlast rfl hm

/-- **What is opened in a level is closed in it,** and between the two parentheses stands a level. -/
theorem exists_close {o : Lexeme} (ho : o.isOpening = true) {pre rest : List Lexeme} (hls : ls = pre ++ o :: rest) :
    ∃ body post, rest = body ++ Lexeme.close :: post ∧ ∃ m : Level, m.Reads body := by
  -- a last lexeme that opens nothing stands behind the parentheses
  have hlast : ∀ {n : Lexeme} {ls pre rest : List Lexeme}, n.isOpening = false →
      (∀ {rest}, ls = pre ++ o :: rest →
        ∃ body post, rest = body ++ Lexeme.close :: post ∧ ∃ m : Level, m.Reads body) →
      ls ++ [n] = pre ++ o :: rest →
        ∃ body post, rest = body ++ Lexeme.close :: post ∧ ∃ m : Level, m.Reads body := by
    intro n ls pre rest hn ih hls
    rcases eq_nil_or_concat rest with rfl | ⟨rest, r, rfl⟩
    · obtain rfl : n = o := singleton_inj.1 (append_inj' hls rfl).2
      rw [hn] at ho
      cases ho
    · rw [concat_eq_append, ← cons_append, ← append_assoc] at hls
      obtain ⟨body, post, rfl, hm⟩ := ih (append_inj' hls rfl).1
      refine ⟨body, post ++ [r], ?_, hm⟩
      rw [concat_eq_append, append_assoc, cons_append]
  induction h generalizing pre rest with
  | start => simp at hls
  | atom h a ih | bar h ih | times h hx b ih => exact hlast rfl ih hls
  | @enclosed l m ls ms h hm k ih ihm =>
    rcases append_eq_append_iff.1 hls with ⟨as, -, hrest⟩ | ⟨as, hls', hrest⟩
    · cases as with
      | nil => exact ⟨ms, [], (List.cons.inj hrest).2.symm, m, hm⟩
      | cons => exact hlast rfl ihm (List.cons.inj hrest).2
    · cases as with
      | nil => exact ⟨ms, [], (List.cons.inj hrest).2, m, hm⟩
      | cons =>
        obtain ⟨rfl, rfl⟩ := List.cons.inj hrest
        obtain ⟨body, post, rfl, hbody⟩ := ih hls'
        exact ⟨body, _, append_assoc .., hbody⟩

end

end Level.Reads

end RegexBuilder
