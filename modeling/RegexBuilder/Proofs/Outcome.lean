/-
# Outcomes of computations

A computation in a session or on a growing graph either answers and leaves a new state, or fails.
`Ensures P a Q E` says what every outcome of `a` satisfies when it starts in a state with `P`: an
answer and the state after it satisfy `Q`, a failure satisfies `E`. It is kept by the ways in which
computations are put together, so a fact about one step carries over to a whole run.
-/

import RegexBuilder.Proofs.Lists

namespace RegexBuilder

open List

variable {σ ε α β : Type} {x : Except ε α}

/-- Two steps succeed if the first does and then the second. -/
theorem bind_eq_ok {k : α → Except ε β} {b : β} : (x >>= k) = .ok b ↔ ∃ a, x = .ok a ∧ k a = .ok b := by
  cases x with
  | error => exact ⟨fun h => (by cases h), fun ⟨_, h, _⟩ => (by cases h)⟩
  | ok a => exact ⟨fun h => ⟨a, rfl, h⟩, fun ⟨_, h, hk⟩ => (by cases h; exact hk)⟩

/-- Two steps fail if the first does, or then the second. -/
theorem bind_eq_error {k : α → Except ε β} {f : ε} :
    (x >>= k) = .error f ↔ x = .error f ∨ ∃ a, x = .ok a ∧ k a = .error f := by
  cases x with
  | error =>
    refine ⟨fun h => .inl (by cases h; rfl), ?_⟩
    rintro (h | ⟨_, h, _⟩)
    · cases h; rfl
    · cases h
  | ok a =>
    refine ⟨fun h => .inr ⟨a, rfl, h⟩, ?_⟩
    rintro (h | ⟨_, h, hk⟩)
    · cases h
    · cases h; exact hk

theorem mapError_eq_ok {ε' : Type} {f : ε → ε'} {a : α} : x.mapError f = .ok a ↔ x = .ok a := by
  cases x <;> simp [Except.mapError]

theorem mapError_eq_error {ε' : Type} {f : ε → ε'} {e : ε'} :
    x.mapError f = .error e ↔ ∃ e', x = .error e' ∧ e = f e' := by
  cases x <;> simp [Except.mapError, eq_comm]

/-- An answer is what is left if the failures are forgotten. -/
theorem toOption_eq_some {a : α} : x.toOption = some a ↔ x = .ok a := by
  cases x <;> simp [Except.toOption]

/-- Every error of the computation satisfies `E`. -/
def FailsOnly (E : ε → Prop) (x : Except ε α) : Prop := ∀ e, x = .error e → E e

namespace FailsOnly

variable {E : ε → Prop}

theorem ok (a : α) : FailsOnly E (.ok a : Except ε α) := fun _ h => by cases h

theorem error {e : ε} (he : E e) : FailsOnly E (.error e : Except ε α) := fun _ h => by
  cases h
  exact he

/-- What fails fails in the first part or in what follows it. -/
theorem bind {k : α → Except ε β} (h : FailsOnly E x) (hk : ∀ a, x = .ok a → FailsOnly E (k a)) :
    FailsOnly E (x >>= k) := by
  intro e he
  rcases bind_eq_error.1 he with hx | ⟨a, ha, he⟩
  · exact h e hx
  · exact hk a ha e he

theorem map {f : α → β} (h : FailsOnly E x) : FailsOnly E (x.map f) := by
  intro e he
  cases x with
  | error =>
    cases he
    exact h _ rfl
  | ok => cases he

theorem mapError {ε' : Type} {E' : ε' → Prop} {f : ε → ε'} (h : FailsOnly E x) (hf : ∀ e, E e → E' (f e)) :
    FailsOnly E' (x.mapError f) := by
  intro e he
  obtain ⟨e', hx, rfl⟩ := mapError_eq_error.1 he
  exact hf e' (h e' hx)

end FailsOnly

theorem run_bind_of_run {x : StateM σ α} {f : α → StateM σ β} {s s' : σ} {a : α}
    (h : x.run s = (a, s')) : (x >>= f).run s = (f a).run s' := by
  rw [StateT.run_bind, h]
  rfl

/-- Two steps succeed if the first does and then the second. -/
theorem run_bind_eq_ok {a : StateT σ (Except ε) α} {k : α → StateT σ (Except ε) β} {s s' : σ}
    {y : β} : (a >>= k) s = .ok (y, s') ↔ ∃ x s₁, a s = .ok (x, s₁) ∧ k x s₁ = .ok (y, s') := by
  rw [show (a >>= k) s = (a s >>= fun x => k x.1 x.2) from rfl, bind_eq_ok, Prod.exists]

/-- Two steps fail if the first does, or then the second. -/
theorem run_bind_eq_error {a : StateT σ (Except ε) α} {k : α → StateT σ (Except ε) β} {s : σ}
    {f : ε} : (a >>= k) s = .error f ↔
      a s = .error f ∨ ∃ x s₁, a s = .ok (x, s₁) ∧ k x s₁ = .error f := by
  rw [show (a >>= k) s = (a s >>= fun x => k x.1 x.2) from rfl, bind_eq_error, Prod.exists]

/-- From a state with `P`, an answer of `a` satisfies `Q` and a failure of `a` satisfies `E`. -/
def Ensures (P : σ → Prop) (a : StateT σ (Except ε) α) (Q : α → σ → Prop) (E : ε → Prop) : Prop :=
  ∀ s, P s → (∀ x s', a s = .ok (x, s') → Q x s') ∧ ∀ f, a s = .error f → E f

namespace Ensures

variable {P : σ → Prop} {Q : α → σ → Prop} {R : β → σ → Prop} {E : ε → Prop}

theorem pure {a : α} (h : ∀ s, P s → Q a s) : Ensures P (pure a : StateT σ (Except ε) α) Q E := by
  refine fun s hs => ⟨fun x s' hx => ?_, fun f hf => ?_⟩
  · cases hx
    exact h s hs
  · cases hf

theorem throw {f : ε} (h : E f) : Ensures P (throw f : StateT σ (Except ε) α) Q E := by
  refine fun s _ => ⟨fun x s' hx => ?_, fun f' hf => ?_⟩
  · cases hx
  · cases hf
    exact h

/-- **What one part ensures, the next may use.** -/
theorem bind {a : StateT σ (Except ε) α} {k : α → StateT σ (Except ε) β} (h : Ensures P a Q E)
    (hk : ∀ x, Ensures (Q x) (k x) R E) : Ensures P (a >>= k) R E := by
  intro s hs
  obtain ⟨hok, herr⟩ := h s hs
  constructor
  · intro y s' hy
    obtain ⟨x, s₁, hx, hy⟩ := run_bind_eq_ok.1 hy
    exact (hk x s₁ (hok x s₁ hx)).1 y s' hy
  · intro f hf
    rcases run_bind_eq_error.1 hf with hf | ⟨x, s₁, hx, hf⟩
    · exact herr f hf
    · exact (hk x s₁ (hok x s₁ hx)).2 f hf

theorem mono {P' : σ → Prop} {Q' : α → σ → Prop} {E' : ε → Prop} {a : StateT σ (Except ε) α}
    (h : Ensures P a Q E) (hP : ∀ s, P' s → P s) (hQ : ∀ x s, Q x s → Q' x s)
    (hE : ∀ f, E f → E' f) : Ensures P' a Q' E' := fun s hs =>
  ⟨fun x s' hx => hQ x s' ((h s (hP s hs)).1 x s' hx), fun f hf => hE f ((h s (hP s hs)).2 f hf)⟩

/-- **A loop over a list keeps what each of its rounds keeps.** -/
theorem mapM {f : α → StateT σ (Except ε) β} :
    ∀ {l : List α}, (∀ x ∈ l, Ensures P (f x) (fun _ => P) E) →
      Ensures P (l.mapM f) (fun _ => P) E
  | [], _ => by
    rw [mapM_nil]
    exact .pure fun _ hs => hs
  | x :: l, h => by
    rw [mapM_cons]
    refine (h x mem_cons_self).bind fun y => ?_
    exact (mapM fun x' hx' => h x' (mem_cons_of_mem _ hx')).bind fun ys => .pure fun _ hs => hs

end Ensures

/-- A loop that answers has gone through every round: when each leads to a later state, the rounds lie between the
first state and the last. -/
theorem mapM_eq_ok {le : σ → σ → Prop} (hrefl : ∀ s, le s s)
    (htrans : ∀ {a b c}, le a b → le b c → le a c) {f : α → StateT σ (Except ε) β} :
    ∀ {l : List α} {s s' : σ} {ys : List β},
      (∀ x ∈ l, ∀ s y s', f x s = .ok (y, s') → le s s') → l.mapM f s = .ok (ys, s') →
        le s s' ∧ Forall₂ (fun x y => ∃ s₁ s₂, le s s₁ ∧ f x s₁ = .ok (y, s₂) ∧ le s₂ s') l ys
  | [], s, s', ys, _, h => by
    rw [mapM_nil] at h
    cases h
    exact ⟨hrefl s, .nil⟩
  | x :: l, s, s', ys, hf, h => by
    rw [mapM_cons, run_bind_eq_ok] at h
    obtain ⟨y, s₁, hy, h⟩ := h
    obtain ⟨ys', s₂, hys, h⟩ := run_bind_eq_ok.1 h
    cases h
    have h₁ := hf x mem_cons_self s y s₁ hy
    obtain ⟨h₂, hrest⟩ := mapM_eq_ok hrefl htrans (fun x' hx' => hf x' (mem_cons_of_mem _ hx')) hys
    refine ⟨htrans h₁ h₂, .cons ⟨s, s₁, hrefl s, hy, h₂⟩ (hrest.imp ?_)⟩
    rintro x' y' ⟨t₁, t₂, ht₁, hx', ht₂⟩
    exact ⟨t₁, t₂, htrans h₁ ht₁, hx', ht₂⟩
/-- A loop without a state answers with the answers of its rounds. -/
theorem mapM_eq_ok_iff {f : α → Except ε β} {l : List α} {ys : List β} :
    l.mapM f = .ok ys ↔ Forall₂ (fun x y => f x = .ok y) l ys := by
  induction l generalizing ys with
  | nil => simp [pure, Except.pure, eq_comm]
  | cons x l ih =>
    rw [mapM_cons, bind_eq_ok, forall₂_cons_left_iff]
    constructor
    · rintro ⟨y, hy, h⟩
      obtain ⟨ys, hys, h⟩ := bind_eq_ok.1 h
      cases h
      exact ⟨y, ys, hy, ih.1 hys, rfl⟩
    · rintro ⟨y, ys, hy, hys, rfl⟩
      exact ⟨y, hy, bind_eq_ok.2 ⟨ys, ih.2 hys, rfl⟩⟩

/-- Loops whose rounds come out the same come out the same. -/
theorem mapM_eq_of_forall₂ {γ : Type} {f : α → Except ε γ} {f' : β → Except ε γ} {l : List α} {l' : List β}
    (h : Forall₂ (fun a b => f a = f' b) l l') : l.mapM f = l'.mapM f' := by
  induction h with
  | nil => rfl
  | cons hab _ ih => rw [mapM_cons, mapM_cons, hab, ih]

end RegexBuilder
