/-
# What grammar rules match

For each way to build a grammar rule, when the rule matches. A rule that does not match stops or fails
for good; it stops (`Rule.Stops`) if an option or a repetition goes on without it.
-/

import Mathlib.Data.List.Nodup
import RegexBuilder.Description.Matching

namespace RegexBuilder.Description

open List
namespace Rule

variable {α β : Type} {r : Rule α} {rs : List (Rule α)} {k : α → Rule β} {ts rest : List Token} {a : α} {as : List α}

/-- The rule does not match and does not get beyond the first token. -/
def Stops (r : Rule α) (ts : List Token) : Prop :=
  r ts = .noMatch ∨ ∃ left why, r ts = .failed left why ∧ ts.length ≤ left + 1

/-- A rule that matches does not stop. -/
theorem not_stops_of_matched (h : r ts = .matched a rest) : ¬ r.Stops ts := by
  rintro (h' | ⟨left, why, h', -⟩) <;> cases h.symm.trans h'

/-! ### Sequences -/

theorem matched_done {b : α} : done a ts = .matched b rest ↔ a = b ∧ ts = rest := by
  simp [done]

theorem matched_pure {b : α} : (pure a : Rule α) ts = .matched b rest ↔ a = b ∧ ts = rest := matched_done

/-- A sequence matches if its parts match one after another. -/
theorem matched_bind {b : β} : (r >>= k) ts = .matched b rest ↔
    ∃ a mid, r ts = .matched a mid ∧ k a mid = .matched b rest := by
  have hdemand : ∀ {a mid}, (k a).demand mid = .matched b rest ↔ k a mid = .matched b rest := by
    intro a mid
    unfold demand
    split
    · next h =>
      rw [h]
      split <;> simp
    · rfl
  show andThen r k ts = _ ↔ _
  unfold andThen
  split
  · next h => simp [h]
  · next h => simp [h]
  · next h => simp [h, hdemand]

theorem noMatch_bind (h : r ts = .noMatch) : (r >>= k) ts = .noMatch := by
  show andThen r k ts = _
  rw [andThen, h]

theorem stops_bind (h : r.Stops ts) : (r >>= k).Stops ts := by
  rcases h with h | ⟨left, why, h, hleft⟩
  · exact .inl (noMatch_bind h)
  · refine .inr ⟨left, why, ?_, hleft⟩
    show andThen r k ts = _
    rw [andThen, h]

variable {t : Token} {kind : TokenKind} {w : Text} {remembered : Option (Nat × SyntaxError)}
  {bound : Nat} {spelling : α → Text} {words : List α}

/-- A sequence stops if its first part takes one token and the next part does not match. -/
theorem stops_bind_of_matched (h : r (t :: rest) = .matched a rest)
    (hk : k a rest = .noMatch) : (r >>= k).Stops (t :: rest) := by
  have hbind : (r >>= k) (t :: rest) = (k a).demand rest := by
    show andThen r k (t :: rest) = _
    rw [andThen, h]
  unfold demand at hbind
  rw [hk] at hbind
  cases rest with
  | nil => exact .inl hbind
  | cons => exact .inr ⟨_, _, hbind, Nat.le_refl _⟩

/-! ### Tokens -/

theorem matched_token {p : Token → Bool} : token p ts = .matched t rest ↔ ts = t :: rest ∧ p t = true := by
  cases ts with
  | nil => simp [token]
  | cons => grind [token]

theorem matched_ofKind : ofKind kind ts = .matched t rest ↔ ts = t :: rest ∧ t.kind = kind := by
  rw [ofKind, matched_token, decide_eq_true_iff]

theorem matched_word : word w ts = .matched t rest ↔ ts = t :: rest ∧ t.kind ≠ .eof ∧ t.value = w := by
  rw [word, matched_token, Bool.and_eq_true, decide_eq_true_iff, decide_eq_true_iff]

theorem noMatch_ofKind (h : t.kind ≠ kind) : ofKind kind (t :: ts) = .noMatch := by simp [ofKind, token, h]

theorem noMatch_word (h : t.value ≠ w) : word w (t :: ts) = .noMatch := by
  simp [word, token, h]

/-- A word does not match where no token has its value. -/
theorem noMatch_word_of_forall (h : ∀ t us, ts = t :: us → t.kind ≠ .eof → t.value ≠ w) : word w ts = .noMatch := by
  cases ts with
  | nil => rfl
  | cons t us =>
    have hnot : ¬ (t.kind ≠ .eof ∧ t.value = w) := fun ht => h t us rfl ht.1 ht.2
    simpa [word, token] using hnot

/-- A word matches or does not; either way an option goes on. -/
theorem exists_matched_option_word (w : Text) (ts : List Token) :
    ∃ o rest, Rule.option (word w) ts = .matched o rest := by
  unfold Rule.option word token
  split
  · exact ⟨_, _, rfl⟩
  · exact ⟨_, _, rfl⟩
  · next h =>
    split at h
    · cases h
    · split at h <;> cases h

theorem not_stops_word (hkind : t.kind ≠ .eof) (h : t.value = w) :
    ¬ (word w).Stops (t :: ts) := not_stops_of_matched (matched_word.2 ⟨rfl, hkind, h⟩)

/-- What a rule for words matches is a token with the spelling of one of them. -/
theorem of_matched_oneWord (h : oneWord spelling words ts = .matched a rest) :
    a ∈ words ∧ ∃ t, ts = t :: rest ∧ t.kind ≠ .eof ∧ t.value = spelling a := by
  unfold oneWord at h
  split at h
  · cases h
  · next t us =>
    split at h
    · next w hw =>
      cases h
      exact ⟨mem_of_find?_eq_some hw, t, rfl, by simpa using find?_some hw⟩
    · cases h

/-- A token with the spelling of a word is matched by a rule for it. -/
theorem matched_oneWord (ha : a ∈ words)
    (hnodup : (words.map spelling).Nodup) (hkind : t.kind ≠ .eof) (hvalue : t.value = spelling a) :
    oneWord spelling words (t :: ts) = .matched a ts := by
  cases hfind : words.find? fun w => t.kind ≠ .eof && t.value = spelling w with
  | none => simpa [hkind, hvalue] using List.find?_eq_none.1 hfind a ha
  | some w =>
    obtain ⟨-, hw⟩ : t.kind ≠ .eof ∧ t.value = spelling w := by simpa using find?_some hfind
    obtain rfl : w = a := inj_on_of_nodup_map hnodup (mem_of_find?_eq_some hfind) ha (hw.symm.trans hvalue)
    simp only [oneWord, hfind]

/-- A token that spells none of the words is not matched. -/
theorem noMatch_oneWord (h : t.value ∉ words.map spelling) : oneWord spelling words (t :: ts) = .noMatch := by
  have hnone : (words.find? fun w => t.kind ≠ .eof && t.value = spelling w) = none := by
    refine List.find?_eq_none.2 fun w hw => ?_
    have hne : t.value ≠ spelling w := fun heq => h (heq ▸ mem_map_of_mem hw)
    simp [hne]
  unfold oneWord
  simp only [hnone]

/-! ### Choices -/

/-- The rules up to the one that matches stop. -/
def FirstMatch : List (Rule α) → (ts : List Token) → α → (rest : List Token) → Prop
  | [], _, _, _ => False
  | r :: rs, ts, a, rest => r ts = .matched a rest ∨ r.Stops ts ∧ FirstMatch rs ts a rest

/-- Behind a rule that stops the choice goes on. -/
theorem choose_of_stops (h : r.Stops ts) :
    ∃ remembered', choose remembered (r :: rs) ts = choose remembered' rs ts := by
  rcases h with hr | ⟨left, why, hr, hleft⟩
  · exact ⟨remembered, by simp only [choose, hr]⟩
  · refine ⟨some (further remembered left why), ?_⟩
    simp only [choose, hr, if_neg (Nat.not_lt.2 hleft)]

/-- A choice matches what the first rule matches that does not stop. -/
theorem matched_choose : choose remembered rs ts = .matched a rest ↔ FirstMatch rs ts a rest := by
  induction rs generalizing remembered with
  | nil =>
    unfold choose
    split <;> simp [FirstMatch]
  | cons r rs ih =>
    constructor
    · intro h
      unfold choose at h
      split at h
      · next hr =>
        cases h
        exact .inl hr
      · next hr => exact .inr ⟨.inl hr, ih.1 h⟩
      · next left why hr =>
        split at h
        · cases h
        · exact .inr ⟨.inr ⟨left, why, hr, by omega⟩, ih.1 h⟩
    · rintro (hr | ⟨hr, h⟩)
      · simp only [choose, hr]
      · obtain ⟨remembered', hnext⟩ := choose_of_stops hr
        rw [hnext]
        exact ih.2 h

theorem matched_firstOf : firstOf rs ts = .matched a rest ↔ FirstMatch rs ts a rest := matched_choose

/-- A choice stops if all its rules do. -/
theorem stops_choose (h : ∀ r ∈ rs, r.Stops ts) : (choose remembered rs).Stops ts := by
  induction rs generalizing remembered with
  | nil =>
    cases remembered with
    | none => exact .inl rfl
    | some => exact .inr ⟨_, _, rfl, Nat.le_succ _⟩
  | cons r rs ih =>
    obtain ⟨hr, hrs⟩ := forall_mem_cons.1 h
    obtain ⟨remembered', hnext⟩ := choose_of_stops hr
    unfold Stops
    rw [hnext]
    exact ih hrs

theorem stops_firstOf (h : ∀ r ∈ rs, r.Stops ts) : (firstOf rs).Stops ts := stops_choose h

/-- If the rules before it do not match, a rule of a choice may match. -/
theorem FirstMatch.of_getElem? (n : Nat) (hn : rs[n]? = some r)
    (hbefore : ∀ r' ∈ rs.take n, r' ts = .noMatch) (h : r ts = .matched a rest) : FirstMatch rs ts a rest := by
  induction rs generalizing n with
  | nil => cases hn
  | cons r' rs ih =>
    cases n with
    | zero =>
      cases hn
      exact .inl h
    | succ n =>
      obtain ⟨hr', hbefore⟩ := forall_mem_cons.1 hbefore
      exact .inr ⟨.inl hr', ih n hn hbefore⟩

/-- What a choice matches, one of its rules matches. -/
theorem FirstMatch.exists_mem (h : FirstMatch rs ts a rest) : ∃ r ∈ rs, r ts = .matched a rest := by
  induction rs with
  | nil => exact h.elim
  | cons r rs ih =>
    rcases h with h | ⟨-, h⟩
    · exact ⟨r, mem_cons_self, h⟩
    · obtain ⟨r', hr', h⟩ := ih h
      exact ⟨r', mem_cons_of_mem r hr', h⟩

/-! ### Options and repetitions -/

/-- An option matches what its rule matches, and nothing where that stops. -/
theorem matched_option {o : Option α} : Rule.option r ts = .matched o rest ↔
    (∃ a, o = some a ∧ r ts = .matched a rest) ∨ (o = none ∧ ts = rest ∧ r.Stops ts) := by
  constructor
  · intro h
    unfold Rule.option at h
    split at h
    · next a left hr =>
      cases h
      exact .inl ⟨a, rfl, hr⟩
    · next hr =>
      cases h
      exact .inr ⟨rfl, rfl, .inl hr⟩
    · next left why hr =>
      split at h
      · cases h
      · cases h
        exact .inr ⟨rfl, rfl, .inr ⟨left, why, hr, by omega⟩⟩
  · rintro (⟨a, rfl, hr⟩ | ⟨rfl, rfl, hr | ⟨left, why, hr, hleft⟩⟩)
    · simp only [Rule.option, hr]
    · simp only [Rule.option, hr]
    · simp only [Rule.option, hr, if_neg (Nat.not_lt.2 hleft)]

/-- The rule matches once for each value, one match after another. -/
def Runs (r : Rule α) : List α → (ts rest : List Token) → Prop
  | [], ts, rest => ts = rest
  | a :: as, ts, rest => ∃ mid, r ts = .matched a mid ∧ Runs r as mid rest

/-- What a repetition matches, its rule matches one after another. -/
theorem runs_of_matched_manyTo (h : manyTo r bound ts = .matched as rest) : r.Runs as ts rest := by
  induction bound generalizing ts as with
  | zero =>
    cases h
    rfl
  | succ bound ih =>
    unfold manyTo at h
    split at h
    · next a mid hr =>
      split at h
      · next bs left hmany =>
        cases h
        exact ⟨mid, hr, ih hmany⟩
      · next hne => exact absurd h (hne _ _)
    · cases h
      rfl
    · split at h
      · cases h
      · cases h
        rfl

theorem runs_of_matched_many (h : many r ts = .matched as rest) : r.Runs as ts rest := runs_of_matched_manyTo h

theorem runs_of_matched_many1 (h : many1 r ts = .matched as rest) : as ≠ [] ∧ r.Runs as ts rest := by
  unfold many1 at h
  split at h
  · cases h
  · next hne =>
    refine ⟨?_, runs_of_matched_many h⟩
    rintro rfl
    exact hne _ h

/-- A repetition goes on as long as its rule matches, and ends where the rule stops. -/
theorem matched_manyTo (h : r.Runs as ts rest) (hstops : r.Stops rest)
    (hbound : as.length ≤ bound) : manyTo r bound ts = .matched as rest := by
  induction as generalizing ts bound with
  | nil =>
    obtain rfl : ts = rest := h
    cases bound with
    | zero => rfl
    | succ =>
      rcases hstops with hr | ⟨left, why, hr, hleft⟩
      · simp only [manyTo, hr]
      · simp only [manyTo, hr, if_neg (Nat.not_lt.2 hleft)]
  | cons a as ih =>
    obtain ⟨mid, hr, hruns⟩ := h
    obtain ⟨bound, rfl⟩ : ∃ b, bound = b + 1 := ⟨bound - 1, by simp at hbound; omega⟩
    simp only [manyTo, hr, ih hruns (Nat.le_of_succ_le_succ hbound)]

theorem matched_many (h : r.Runs as ts rest) (hstops : r.Stops rest) (hlength : as.length ≤ ts.length) :
    many r ts = .matched as rest := matched_manyTo h hstops hlength

theorem matched_many1 (hne : as ≠ []) (h : r.Runs as ts rest) (hstops : r.Stops rest)
    (hlength : as.length ≤ ts.length) : many1 r ts = .matched as rest := by
  unfold many1
  rw [matched_many h hstops hlength]
  cases as with
  | nil => exact absurd rfl hne
  | cons => rfl

/-- A rule that is given a place matches at some place. -/
theorem exists_of_matched_placed {p : Position → Rule α} (h : placed p ts = .matched a rest) :
    ∃ pos, p pos ts = .matched a rest := by
  unfold placed at h
  split at h
  · cases h
  · exact ⟨_, h⟩

end Rule
end RegexBuilder.Description
