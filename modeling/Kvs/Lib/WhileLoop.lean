/-
**Loops that may not end.**

A round of a loop maps a state to the next one (`Sum.inl`) or leaves the loop with a result
(`Sum.inr`). A loop `Returns` a result when some number of rounds leaves it with that result, it
`Diverges` when none does, and an observation `Settles` on a value when it has that value from some
round on, whether or not the loop is left.

`Reaches` is any number of rounds. Each of the three is the same before and after rounds that are
made anyway (`reaches_*`), so a run is followed by chaining reaches.
-/

import Mathlib

namespace WhileLoop

variable {σ ρ γ : Type} {body : σ → σ ⊕ ρ} {state next : σ} {result : ρ}

/-- The loop after some rounds. -/
def rounds (body : σ → σ ⊕ ρ) : ℕ → σ → σ ⊕ ρ
  | 0, state => .inl state
  | count + 1, state =>
    match body state with
    | .inl next => rounds body count next
    | .inr result => .inr result

/-- The loop is left with the result. -/
def Returns (body : σ → σ ⊕ ρ) (state : σ) (result : ρ) : Prop :=
  ∃ count, rounds body count state = .inr result

/-- The loop is never left. -/
def Diverges (body : σ → σ ⊕ ρ) (state : σ) : Prop :=
  ∀ count, ∃ next, rounds body count state = .inl next

/-- From some round on, the observation has the value. -/
def Settles (body : σ → σ ⊕ ρ) (state : σ) (observe : σ ⊕ ρ → γ) (value : γ) : Prop :=
  ∃ start, ∀ count, start ≤ count → observe (rounds body count state) = value

/-- Any number of rounds. -/
def Reaches (body : σ → σ ⊕ ρ) : σ → σ → Prop :=
  Relation.ReflTransGen fun state next => body state = .inl next

/-! ### Rounds -/

theorem rounds_of_inl (round : body state = .inl next) (count : ℕ) :
    rounds body (count + 1) state = rounds body count next := by
  rw [rounds, round]

theorem rounds_of_inr (round : body state = .inr result) (count : ℕ) :
    rounds body (count + 1) state = .inr result := by
  rw [rounds, round]

/-- A loop that is left stays left. -/
theorem rounds_stay {count : ℕ} (left : rounds body count state = .inr result) {more : ℕ}
    (later : count ≤ more) : rounds body more state = .inr result := by
  induction count generalizing state more with
  | zero => cases left
  | succ count ih =>
    obtain ⟨more, rfl⟩ : ∃ fewer, more = fewer + 1 := ⟨more - 1, by omega⟩
    cases round : body state with
    | inl next =>
      rw [rounds_of_inl round] at left ⊢
      exact ih left (Nat.le_of_succ_le_succ later)
    | inr other =>
      rw [rounds_of_inr round] at left ⊢
      exact left

/-! ### Leaving the loop -/

theorem returns_of_inr (round : body state = .inr result) : Returns body state result :=
  ⟨1, rounds_of_inr round 0⟩

theorem Returns.unique {other : ρ} (one : Returns body state result)
    (two : Returns body state other) : result = other := by
  obtain ⟨count, first⟩ := one
  obtain ⟨count', second⟩ := two
  have both := (rounds_stay first (le_max_left count count')).symm.trans
    (rounds_stay second (le_max_right count count'))
  exact Sum.inr.inj both

theorem Diverges.not_returns (never : Diverges body state) (result : ρ) :
    ¬ Returns body state result := by
  rintro ⟨count, left⟩
  obtain ⟨next, going⟩ := never count
  rw [going] at left
  cases left

/-- **The invariant rule of divergence.** -/
theorem diverges_of_invariant (invariant : σ → Prop)
    (keeps : ∀ state, invariant state → ∃ next, body state = .inl next ∧ invariant next)
    (start : invariant state) : Diverges body state := by
  intro count
  induction count generalizing state with
  | zero => exact ⟨state, rfl⟩
  | succ count ih =>
    obtain ⟨next, round, kept⟩ := keeps state start
    rw [rounds_of_inl round]
    exact ih kept

/-! ### Settling -/

theorem Settles.unique {observe : σ ⊕ ρ → γ} {one two : γ} (first : Settles body state observe one)
    (second : Settles body state observe two) : one = two := by
  obtain ⟨start, from'⟩ := first
  obtain ⟨start', from''⟩ := second
  exact (from' _ (le_max_left start start')).symm.trans (from'' _ (le_max_right start start'))

theorem Returns.settles (left : Returns body state result) (observe : σ ⊕ ρ → γ) :
    Settles body state observe (observe (.inr result)) := by
  obtain ⟨count, equal⟩ := left
  exact ⟨count, fun more later => by rw [rounds_stay equal later]⟩

/-- An observation that every round keeps. -/
theorem settles_of_invariant (invariant : σ → Prop) {observe : σ ⊕ ρ → γ} {value : γ}
    (observed : ∀ state, invariant state → observe (.inl state) = value)
    (keeps : ∀ state, invariant state → (∃ next, body state = .inl next ∧ invariant next) ∨
      ∃ result, body state = .inr result ∧ observe (.inr result) = value)
    (start : invariant state) : Settles body state observe value := by
  refine ⟨0, fun count _ => ?_⟩
  induction count generalizing state with
  | zero => exact observed state start
  | succ count ih =>
    rcases keeps state start with ⟨next, round, kept⟩ | ⟨result, round, equal⟩
    · rw [rounds_of_inl round]
      exact ih kept (Nat.zero_le _)
    · rw [rounds_of_inr round]
      exact equal

/-! ### Rounds that are made anyway -/

theorem reaches_returns (reaches : Reaches body state next) :
    Returns body state result ↔ Returns body next result := by
  induction reaches with
  | refl => exact Iff.rfl
  | tail _ round ih =>
    refine ih.trans ⟨?_, fun ⟨count, left⟩ => ⟨count + 1, by rw [rounds_of_inl round, left]⟩⟩
    rintro ⟨count, left⟩
    cases count with
    | zero => cases left
    | succ count => exact ⟨count, by rw [← rounds_of_inl round, left]⟩

theorem reaches_settles {observe : σ ⊕ ρ → γ} {value : γ} (reaches : Reaches body state next) :
    Settles body state observe value ↔ Settles body next observe value := by
  induction reaches with
  | refl => exact Iff.rfl
  | tail _ round ih =>
    refine ih.trans ⟨?_, ?_⟩
    · rintro ⟨start, settled⟩
      exact ⟨start, fun count later => by
        rw [← rounds_of_inl round, settled (count + 1) (by omega)]⟩
    · rintro ⟨start, settled⟩
      refine ⟨start + 1, fun count later => ?_⟩
      obtain ⟨count, rfl⟩ : ∃ fewer, count = fewer + 1 := ⟨count - 1, by omega⟩
      rw [rounds_of_inl round]
      exact settled count (by omega)

end WhileLoop
