/-
# Reading a pattern

The second step of reading: lexemes become pieces. A pattern is a list of branches, a branch is a list of pieces,
and a piece is an atom, a group, a conditional or one of these with a suffix. Lexemes are taken one after another
(`Reader.step`); a group that is open keeps what was read around it on a stack.

The plain group `(?:…)` only says what belongs together, and `Item.erase` removes it. Some lexemes add the same
pieces wherever they stand (`ReadsPieces`).
-/

import RegexBuilder.Proofs.Lexeme

namespace RegexBuilder

open List Option

/-- A piece of a pattern. -/
inductive Item where
  | atom (a : Atom)
  | group (opening : Text) (branches : List (List Item))
  | conditional (test : Text) (branches : List (List Item))
  | repeated (body : Item) (times : Bounds)

/-- The piece has a suffix. -/
def Item.isRepeated : Item → Bool
  | repeated _ _ => true
  | atom _ | group _ _ | conditional _ _ => false

/-- What opened the parentheses around a level. -/
inductive Head where
  | group (opening : Text)
  | conditional (test : Text)

/-- The piece that the parentheses and the branches between them make. -/
def Head.item : Head → List (List Item) → Item
  | group opening => .group opening
  | conditional test => .conditional test

/-- What was read between two parentheses: the branches before the last bar, and the pieces since. -/
structure Level where
  branches : List (List Item) := []
  pieces : List Item := []

namespace Level

/-- All branches of the level. -/
def all (l : Level) : List (List Item) := l.branches ++ [l.pieces]

/-- Adds pieces to the last branch. -/
def append (l : Level) (xs : List Item) : Level := { l with pieces := l.pieces ++ xs }

/-- Puts a suffix behind the last piece, which must not have one. -/
def suffix? (l : Level) (b : Bounds) : Option Level :=
  match l.pieces.getLast? with
  | some x =>
    if x.isRepeated then none
    else some { l with pieces := l.pieces.dropLast ++ [Item.repeated x b] }
  | none => none

end Level

/-- What was read so far: the innermost level and, innermost first, what is open around it. -/
structure Reader where
  level : Level := {}
  outer : List (Head × Level) := []

namespace Reader

/-- Adds pieces to the last branch of the innermost level. -/
def append (s : Reader) (xs : List Item) : Reader := { s with level := s.level.append xs }

/-- Opens a level. -/
def enter (s : Reader) (h : Head) : Reader := ⟨{}, (h, s.level) :: s.outer⟩

/-- Takes one lexeme. -/
def step (s : Reader) : Lexeme → Option Reader
  | .atom a => some (s.append [.atom a])
  | .opening t => some (s.enter (.group t))
  | .test t => some (s.enter (.conditional t))
  | .bar => some { s with level := ⟨s.level.all, []⟩ }
  | .close =>
    match s.outer with
    | [] => none
    | (h, l) :: outer => some ⟨l.append [h.item s.level.all], outer⟩
  | .times b => (s.level.suffix? b).map fun l => { s with level := l }

/-- Takes the lexemes one after another. -/
def run (s : Reader) (ls : List Lexeme) : Option Reader := ls.foldlM step s

end Reader

/-- The branches of a list of lexemes in which every parenthesis is closed. -/
def branches? (ls : List Lexeme) : Option (List (List Item)) :=
  match Reader.run {} ls with
  | some ⟨l, []⟩ => some l.all
  | _ => none

/-- The branches of a text, if all of it can be read. -/
def readPattern? (t : Text) : Option (List (List Item)) := (lexemes? t).bind branches?

/-! ### Erasing plain groups -/

/-- What a piece is without plain groups. Where several branches stand among other pieces, they are
one `choice`. -/
inductive Shape where
  | token (a : Atom)
  | group (opening : Text) (branches : List (List Shape))
  | conditional (test : Text) (parts : List (List (List Shape)))
  | repeated (body : List (List Shape)) (times : Bounds)
  | choice (branches : List (List Shape))

namespace Shape

/-- The branches as part of a sequence. -/
def parts : List (List Shape) → List Shape
  | [s] => s
  | bs => [choice bs]

/-- The sequence of the given parts; a part alone stays as it is. -/
def sequence : List (List (List Shape)) → List (List Shape)
  | [x] => x
  | xs => [xs.flatMap parts]

/-- The parts of a sequence are those of its parts. -/
theorem parts_sequence (xs : List (List (List Shape))) : parts (sequence xs) = xs.flatMap parts := by
  unfold sequence
  split
  · rw [flatMap_cons, flatMap_nil, List.append_nil]
  · rfl

theorem sequence_of_length_ne_one {xs : List (List (List Shape))} (h : xs.length ≠ 1) :
    sequence xs = [xs.flatMap parts] := by
  unfold sequence
  split
  · exact absurd rfl h
  · rfl

/-- Only nothing has no parts. -/
theorem parts_eq_nil_iff {bs : List (List Shape)} : parts bs = [] ↔ bs = [[]] := by
  unfold parts
  split
  · next s =>
    constructor
    · rintro rfl
      rfl
    · intro h
      exact (List.cons.inj h).1
  · next h =>
    constructor
    · exact fun hnil => (nomatch hnil)
    · rintro rfl
      exact absurd rfl (h [])

end Shape

mutual

/-- The piece without plain groups. -/
def Item.erase : Item → List (List Shape)
  | .atom a => [[.token a]]
  | .group opening bs =>
    if opening = "(?:" then (eraseEach bs).flatten else [[.group opening (eraseEach bs).flatten]]
  | .conditional test bs => [[.conditional test (eraseEach bs)]]
  | .repeated x b => [[.repeated x.erase b]]

/-- Each piece without plain groups. -/
def erasePieces : List Item → List (List (List Shape))
  | [] => []
  | x :: xs => x.erase :: erasePieces xs

/-- Each branch without plain groups. -/
def eraseEach : List (List Item) → List (List (List Shape))
  | [] => []
  | b :: bs => Shape.sequence (erasePieces b) :: eraseEach bs

end

/-- The branch without plain groups. -/
def eraseBranch (xs : List Item) : List (List Shape) := Shape.sequence (erasePieces xs)

/-- All branches without plain groups. -/
def eraseBranches (bs : List (List Item)) : List (List Shape) := (eraseEach bs).flatten

/-- The parts of the branch without plain groups. -/
def erasedParts (xs : List Item) : List Shape := (erasePieces xs).flatMap Shape.parts

theorem erasePieces_eq_map (xs : List Item) : erasePieces xs = xs.map Item.erase := by
  induction xs with
  | nil => rfl
  | cons x xs ih => exact congrArg (x.erase :: ·) ih

/-- Branches are erased one by one. -/
theorem eraseBranches_append (bs cs : List (List Item)) :
    eraseBranches (bs ++ cs) = eraseBranches bs ++ eraseBranches cs := by
  unfold eraseBranches
  induction bs with
  | nil => rfl
  | cons b bs ih =>
    rw [cons_append, eraseEach, eraseEach, flatten_cons, flatten_cons, ih, append_assoc]

theorem eraseBranches_singleton (xs : List Item) : eraseBranches [xs] = eraseBranch xs :=
  List.append_nil _

theorem eraseBranch_singleton (x : Item) : eraseBranch [x] = x.erase := rfl

/-- **A plain group is erased.** -/
theorem erase_plain (bs : List (List Item)) : (Item.group "(?:" bs).erase = eraseBranches bs := by
  rw [Item.erase, if_pos rfl]
  rfl

theorem erase_group {opening : Text} (h : opening ≠ "(?:") (bs : List (List Item)) :
    (Item.group opening bs).erase = [[.group opening (eraseBranches bs)]] := by
  rw [Item.erase, if_neg h]
  rfl

theorem parts_eraseBranch (xs : List Item) : Shape.parts (eraseBranch xs) = erasedParts xs :=
  Shape.parts_sequence _

/-- Pieces are erased one by one. -/
theorem erasedParts_append (xs ys : List Item) : erasedParts (xs ++ ys) = erasedParts xs ++ erasedParts ys := by
  unfold erasedParts
  rw [erasePieces_eq_map, erasePieces_eq_map, erasePieces_eq_map, map_append, flatMap_append]

theorem eraseBranch_of_length_ne_one {xs : List Item} (h : xs.length ≠ 1) : eraseBranch xs = [erasedParts xs] := by
  refine Shape.sequence_of_length_ne_one ?_
  rw [erasePieces_eq_map, length_map]
  exact h

/-! ### Lexemes that are read as pieces -/

namespace Reader

theorem run_append (s : Reader) (ls ms : List Lexeme) : s.run (ls ++ ms) = (s.run ls).bind fun s' => s'.run ms :=
  foldlM_append ..

theorem run_singleton (s : Reader) (l : Lexeme) : s.run [l] = s.step l := by
  unfold run
  rw [foldlM_cons]
  cases s.step l <;> rfl

/-- The state before the last lexeme. -/
theorem exists_of_run_append_singleton {s s' : Reader} {ls : List Lexeme} {l : Lexeme}
    (h : s.run (ls ++ [l]) = some s') : ∃ s₁, s.run ls = some s₁ ∧ s₁.step l = some s' := by
  rw [run_append] at h
  obtain ⟨s₁, hs₁, h⟩ := bind_eq_some_iff.1 h
  rw [run_singleton] at h
  exact ⟨s₁, hs₁, h⟩

theorem append_nil (s : Reader) : s.append [] = s := by
  simp only [append, Level.append, List.append_nil]

end Reader

/-- Wherever they stand, the lexemes add the pieces. -/
def ReadsPieces (xs : List Item) (ls : List Lexeme) : Prop :=
  ∀ s : Reader, s.run ls = some (s.append xs)

/-- The lexemes are branches with bars between them. -/
inductive ReadsBranches : List (List Item) → List Lexeme → Prop
  | last {xs : List Item} {ls : List Lexeme} (h : ReadsPieces xs ls) : ReadsBranches [xs] ls
  | cons {xs : List Item} {bs : List (List Item)} {ls ms : List Lexeme} (h : ReadsPieces xs ls)
      (hbs : ReadsBranches bs ms) : ReadsBranches (xs :: bs) (ls ++ Lexeme.bar :: ms)

namespace ReadsPieces

variable {xs ys : List Item} {ls ms : List Lexeme}

theorem nil : ReadsPieces [] [] := fun s => congrArg some s.append_nil.symm

theorem append (h : ReadsPieces xs ls) (h' : ReadsPieces ys ms) : ReadsPieces (xs ++ ys) (ls ++ ms) := by
  intro s
  rw [Reader.run_append, h s, bind_some, h' _]
  simp only [Reader.append, Level.append, append_assoc]

theorem atom (a : Atom) : ReadsPieces [.atom a] [.atom a] := fun s => s.run_singleton _

/-- Atoms are read as themselves. -/
theorem atoms (as : List Atom) : ReadsPieces (as.map .atom) (as.map .atom) := by
  induction as with
  | nil => exact nil
  | cons a as ih => exact (atom a).append ih

/-- A suffix binds to the piece before it. -/
theorem repeated {x : Item} (h : ReadsPieces [x] ls) (hx : x.isRepeated = false) (b : Bounds) :
    ReadsPieces [.repeated x b] (ls ++ [Lexeme.times b]) := by
  intro s
  rw [Reader.run_append, h s, bind_some, Reader.run_singleton]
  simp [Reader.step, Reader.append, Level.append, Level.suffix?, hx]

/-- Pieces do not begin with a suffix. -/
theorem ne_times (h : ReadsPieces xs ls) {l : Lexeme} (hl : l ∈ ls.head?) (b : Bounds) : l ≠ .times b := by
  rintro rfl
  obtain ⟨ms, rfl⟩ : ∃ ms, ls = .times b :: ms := List.head?_eq_some_iff.1 hl
  cases h {}

/-- A piece without a suffix ends in a lexeme that takes one. -/
theorem takesSuffix {x : Item} (h : ReadsPieces [x] ls) (hx : x.isRepeated = false) {l : Lexeme}
    (hl : l ∈ ls.getLast?) : l.takesSuffix = true := by
  obtain ⟨ms, rfl⟩ : ∃ ms, ls = ms ++ [l] := List.getLast?_eq_some_iff.1 hl
  obtain ⟨s, -, hs⟩ := Reader.exists_of_run_append_singleton (h {})
  cases l with
  | atom | close => rfl
  | opening | test => cases hs
  | bar =>
    have hpieces := congrArg (fun s => s.level.pieces) (Option.some.inj hs)
    cases hpieces
  | times =>
    -- the last piece is then the one with the suffix
    obtain ⟨lev, hlev, hs⟩ := map_eq_some_iff.1 hs
    unfold Level.suffix? at hlev
    split at hlev
    · next y _ =>
      split at hlev
      · cases hlev
      · cases hlev
        have hpieces := congrArg (fun s => s.level.pieces.getLast?) hs
        simp only [Reader.append, Level.append, getLast?_concat, List.nil_append] at hpieces
        cases hpieces
        cases hx
    · cases hlev

/-- Lexemes that end in an atom are read as pieces that do. -/
theorem exists_of_append_atom {a : Atom} (h : ReadsPieces xs (ls ++ [Lexeme.atom a])) :
    ∃ ys, xs = ys ++ [Item.atom a] ∧ ReadsPieces ys ls := by
  have hlast : ∀ s : Reader, ∃ s₁, s.run ls = some s₁ ∧ s₁.append [.atom a] = s.append xs := by
    intro s
    obtain ⟨s₁, hs₁, hs⟩ := Reader.exists_of_run_append_singleton (h s)
    exact ⟨s₁, hs₁, Option.some.inj hs⟩
  obtain ⟨s₀, -, hs₀⟩ := hlast {}
  have hxs : xs = s₀.level.pieces ++ [Item.atom a] := (congrArg (fun s => s.level.pieces) hs₀).symm
  refine ⟨_, hxs, fun s => ?_⟩
  obtain ⟨s₁, hs₁, hs⟩ := hlast s
  rw [hs₁]
  have houter : (s₁.append [.atom a]).outer = (s.append xs).outer := by rw [hs]
  have hbranches : (s₁.append [.atom a]).level.branches = (s.append xs).level.branches := by rw [hs]
  have hpieces : s₁.level.pieces = s.level.pieces ++ s₀.level.pieces := by
    have := congrArg (fun s => s.level.pieces) hs
    simp only [Reader.append, Level.append, hxs, ← append_assoc] at this
    exact append_cancel_right this
  obtain ⟨⟨bs₁, ps₁⟩, o₁⟩ := s₁
  cases houter
  cases hbranches
  cases hpieces
  rfl

end ReadsPieces

namespace ReadsBranches

variable {bs cs : List (List Item)} {ls ms : List Lexeme}

/-- One branch is a list of pieces. -/
theorem pieces {xs : List Item} (h : ReadsBranches [xs] ls) : ReadsPieces xs ls := by
  cases h with
  | last h => exact h
  | cons h hbs => cases hbs

/-- Branches with a bar between them are branches. -/
theorem append (h : ReadsBranches bs ls) (h' : ReadsBranches cs ms) :
    ReadsBranches (bs ++ cs) (ls ++ Lexeme.bar :: ms) := by
  induction h with
  | last h => exact .cons h h'
  | cons h _ ih =>
    rw [append_assoc]
    exact .cons h ih

theorem ne_times (h : ReadsBranches bs ls) {l : Lexeme} (hl : l ∈ ls.head?) (b : Bounds) : l ≠ .times b := by
  cases h with
  | last h => exact h.ne_times hl b
  | @cons _ _ ls ms h _ =>
    cases ls with
    | nil =>
      cases hl
      exact fun hb => (nomatch hb)
    | cons => exact h.ne_times hl b

/-- **At the beginning of a level, branches are read as its branches.** -/
theorem run_eq (h : ReadsBranches bs ls) (s : Reader) (hs : s.level.pieces = []) :
    ∃ l : Level, s.run ls = some ⟨l, s.outer⟩ ∧ l.all = s.level.branches ++ bs := by
  induction h generalizing s with
  | @last xs ls h =>
    refine ⟨s.level.append xs, h s, ?_⟩
    rw [Level.all, Level.append, hs, List.nil_append]
  | @cons xs bs ls ms h _ ih =>
    obtain ⟨l, hl, hall⟩ := ih ⟨⟨(s.level.append xs).all, []⟩, s.outer⟩ rfl
    refine ⟨l, ?_, ?_⟩
    · rw [Reader.run_append, h s, bind_some]
      exact hl
    · rw [hall, Level.all, Level.append, hs, List.nil_append, append_assoc, singleton_append]

/-- What stands between parentheses is one piece. -/
theorem enclosed (h : ReadsBranches bs ls) {l : Lexeme} {k : Head} (hl : ∀ s : Reader, s.step l = some (s.enter k)) :
    ReadsPieces [k.item bs] (l :: (ls ++ [Lexeme.close])) := by
  intro s
  obtain ⟨lev, hrun, hall⟩ := h.run_eq (s.enter k) rfl
  have hopen : s.run (l :: (ls ++ [Lexeme.close])) = (s.enter k).run (ls ++ [Lexeme.close]) := by
    unfold Reader.run
    rw [foldlM_cons, hl]
    rfl
  rw [hopen, Reader.run_append, hrun, bind_some, Reader.run_singleton]
  show some (Reader.mk (s.level.append [k.item lev.all]) s.outer) = _
  rw [hall]
  rfl

/-- **Branches are read as they are.** -/
theorem branches?_eq (h : ReadsBranches bs ls) : branches? ls = some bs := by
  obtain ⟨l, hrun, hall⟩ := h.run_eq {} rfl
  unfold branches?
  rw [hrun]
  exact congrArg some hall

end ReadsBranches

end RegexBuilder
