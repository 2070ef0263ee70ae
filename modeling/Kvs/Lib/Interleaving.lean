/-
**Runs of a system that takes steps.**

`fire event state` is what a system does on an event, none when it cannot take that step. An event
names whose turn it is and what the world outside answers, so that a list of events is one
interleaving of the system's threads. `run` takes the steps of a list.

`run_keeps` is the rule for invariants: what every step keeps holds after any run. `Meets` says of
a run that each of its steps meets a condition in the state it is taken in, and `run_keeps_of_meets`
is the rule for a system whose steps keep an invariant only when they meet one. `run_length` bounds
a run by a measure that every step makes smaller. `run_simulates` matches the runs of a system by
the runs of a simpler one.

`pairs_update` and `total` are for invariants that compare and count threads: what holds of every
two of them, and a weight summed over the places they stand at.
-/

import Mathlib

namespace Interleaving

variable {σ ε : Type} (fire : ε → σ → Option σ)

/-- Steps one after another. -/
def run : List ε → σ → Option σ
  | [], state => some state
  | event :: events, state => (fire event state).bind (run events)

/-- Each step of the run meets the condition, in the state it is taken in. -/
def Meets (condition : ε → σ → Prop) : List ε → σ → Prop
  | [], _ => True
  | event :: events, state =>
    condition event state ∧ ∀ next, fire event state = some next → Meets condition events next

variable {fire} {state final : σ}

@[simp] theorem run_nil : run fire [] state = some state := rfl

theorem run_cons {event : ε} {events : List ε} :
    run fire (event :: events) state = some final ↔
      ∃ next, fire event state = some next ∧ run fire events next = some final :=
  Option.bind_eq_some_iff

/-- Whether a given run meets a condition can be computed. -/
instance decidableMeets {condition : ε → σ → Prop}
    [∀ event state, Decidable (condition event state)] :
    ∀ events state, Decidable (Meets fire condition events state)
  | [], _ => isTrue trivial
  | event :: events, state =>
    match fired : fire event state with
    | none => decidable_of_iff (condition event state)
        ⟨fun met => ⟨met, fun next same => by rw [fired] at same; cases same⟩, And.left⟩
    | some next =>
      have : Decidable (Meets fire condition events next) := decidableMeets events next
      decidable_of_iff (condition event state ∧ Meets fire condition events next)
        ⟨fun ⟨met, rest⟩ => ⟨met, fun other same => by
          rw [fired] at same
          rwa [← Option.some.inj same]⟩, fun ⟨met, rest⟩ => ⟨met, rest next fired⟩⟩

/-- **Invariants.** What every step keeps, every run keeps. -/
theorem run_keeps {Inv : σ → Prop}
    (step : ∀ event state next, Inv state → fire event state = some next → Inv next)
    {events : List ε} (start : Inv state) (ran : run fire events state = some final) :
    Inv final := by
  induction events generalizing state with
  | nil =>
    cases ran
    exact start
  | cons event events ih =>
    obtain ⟨next, fired, rest⟩ := run_cons.mp ran
    exact ih (step event state next start fired) rest

/-- **Invariants under a condition** on the steps. -/
theorem run_keeps_of_meets {Inv : σ → Prop} {condition : ε → σ → Prop}
    (step : ∀ event state next, Inv state → condition event state → fire event state = some next →
      Inv next)
    {events : List ε} (start : Inv state) (meets : Meets fire condition events state)
    (ran : run fire events state = some final) : Inv final := by
  induction events generalizing state with
  | nil =>
    cases ran
    exact start
  | cons event events ih =>
    obtain ⟨next, fired, rest⟩ := run_cons.mp ran
    exact ih (step event state next start meets.1 fired) (meets.2 next fired) rest

/-- **Termination.** A run is no longer than what its steps make smaller. -/
theorem run_length {effort : σ → ℕ}
    (step : ∀ event state next, fire event state = some next → effort next < effort state)
    {events : List ε} (ran : run fire events state = some final) :
    events.length + effort final ≤ effort state := by
  induction events generalizing state with
  | nil =>
    cases ran
    exact (Nat.zero_add _).le
  | cons event events ih =>
    obtain ⟨next, fired, rest⟩ := run_cons.mp ran
    have less := step event state next fired
    have bound := ih rest
    rw [List.length_cons]
    omega

/-! ### Simulation -/

/-- **Forward simulation.** When every step is matched by one step of another system or by none, so
that the states stay related, every run is matched by a run. -/
theorem run_simulates {σ' ε' : Type} {fire' : ε' → σ' → Option σ'} {condition : ε' → σ' → Prop}
    {related : σ → σ' → Prop} {other : σ'}
    (step : ∀ event state next other, related state other → fire event state = some next →
      related next other ∨ ∃ event' next', fire' event' other = some next' ∧
        condition event' other ∧ related next next')
    {events : List ε} (start : related state other) (ran : run fire events state = some final) :
    ∃ events' final', run fire' events' other = some final' ∧
      Meets fire' condition events' other ∧ related final final' := by
  induction events generalizing state other with
  | nil =>
    cases ran
    exact ⟨[], other, rfl, trivial, start⟩
  | cons event events ih =>
    obtain ⟨next, fired, rest⟩ := run_cons.mp ran
    rcases step event state next other start fired with still | ⟨event', next', fired', met, moved⟩
    · exact ih still rest
    · obtain ⟨events', final', ran', meets, related'⟩ := ih moved rest
      refine ⟨event' :: events', final', run_cons.mpr ⟨next', fired', ran'⟩, ⟨met, ?_⟩, related'⟩
      intro after same
      cases fired'.symm.trans same
      exact meets

/-! ### Threads in pairs -/

/-- One thread moves on: what holds of every two threads is to be shown of it and each other one. -/
theorem pairs_update {τ π : Type} [DecidableEq τ] {beside : π → π → Prop} {places : τ → π}
    {thread : τ} {place : π} (old : ∀ a b, a ≠ b → beside (places a) (places b))
    (left : ∀ other ≠ thread, beside place (places other))
    (right : ∀ other ≠ thread, beside (places other) place) (a b : τ) (different : a ≠ b) :
    beside (Function.update places thread place a) (Function.update places thread place b) := by
  by_cases first : a = thread
  · subst first
    rw [Function.update_self, Function.update_of_ne different.symm]
    exact left b different.symm
  · rw [Function.update_of_ne first]
    by_cases second : b = thread
    · subst second
      rw [Function.update_self]
      exact right a first
    · rw [Function.update_of_ne second]
      exact old a b different

/-! ### Counting threads -/

section Sum

variable {τ π M : Type} [Fintype τ] [DecidableEq τ] [AddCommMonoid M]

/-- Two sums that differ in one thread's part. -/
theorem sum_differ {old new : τ → M} {thread : τ}
    (same : ∀ other ≠ thread, new other = old other) :
    ∑ other, new other + old thread = ∑ other, old other + new thread := by
  have rest : ∑ other ∈ Finset.univ.erase thread, new other =
      ∑ other ∈ Finset.univ.erase thread, old other :=
    Finset.sum_congr rfl fun other member => same other (Finset.ne_of_mem_erase member)
  rw [← Finset.add_sum_erase _ _ (Finset.mem_univ thread), rest,
    ← Finset.add_sum_erase _ old (Finset.mem_univ thread)]
  abel

/-- One thread moves on: its old part goes and its new one comes. -/
theorem sum_update (part : τ → π → M) (places : τ → π) (thread : τ) (place : π) :
    ∑ other, part other (Function.update places thread place other) + part thread (places thread) =
      ∑ other, part other (places other) + part thread place := by
  have off : ∀ other ≠ thread,
      part other (Function.update places thread place other) = part other (places other) :=
    fun other different => by rw [Function.update_of_ne different]
  have differ := sum_differ off
  rwa [Function.update_self] at differ

end Sum

section Total

variable {τ π : Type} [Fintype τ]

/-- A weight of the places the threads stand at, summed over the threads. -/
def total (weight : π → ℕ) (places : τ → π) : ℕ := ∑ thread, weight (places thread)

variable [DecidableEq τ]

/-- One thread moves on: its old weight goes and its new one comes. -/
theorem total_update (weight : π → ℕ) (places : τ → π) (thread : τ) (place : π) :
    total weight (Function.update places thread place) + weight (places thread) =
      total weight places + weight place := by
  have split (place : π) : total weight (Function.update places thread place) =
      weight place + ∑ other ∈ Finset.univ.erase thread, weight (places other) := by
    rw [total, ← Finset.add_sum_erase _ _ (Finset.mem_univ thread), Function.update_self]
    congr 1
    apply Finset.sum_congr rfl
    intro other member
    rw [Function.update_of_ne (Finset.ne_of_mem_erase member)]
  have old := split (places thread)
  rw [Function.update_eq_self] at old
  rw [split place, old]
  omega

/-- Where only some threads count and one of them does not, fewer than these are left. -/
theorem total_lt_among {weight : π → ℕ} {places : τ → π} (atMost : ∀ place, weight place ≤ 1)
    {among : Finset τ} (outside : ∀ other ∉ among, weight (places other) = 0) {thread : τ}
    (member : thread ∈ among) (zero : weight (places thread) = 0) :
    total weight places < among.card := by
  have rest : ∑ other ∈ among.erase thread, weight (places other) ≤ (among.erase thread).card * 1 :=
    Finset.sum_le_card_nsmul _ _ 1 fun other _ => atMost (places other)
  rw [total, ← Finset.sum_subset among.subset_univ fun other _ => outside other,
    ← Finset.add_sum_erase _ _ member, zero]
  rw [Finset.card_erase_of_mem member] at rest
  have : 0 < among.card := Finset.card_pos.mpr ⟨thread, member⟩
  omega

end Total

end Interleaving
