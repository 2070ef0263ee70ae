/-
**Programs that end.**

Programs over calls under one lock (`LockedPrograms`) that end by themselves end together:
`pool_acc` says that no schedule goes on for ever, by a measure that every step makes smaller, the
programs' own effort first and then what is left of the calls under way. `pool_settled` says how far
they get: when no step can be made, every program has stopped or waits between two calls, and every
child has come to its end.

That none waits for ever is for the programs to show. `Keeps` is for what they keep true of what
they share; `run_keeps` lifts it to runs.
-/

import Kvs.Lib.LockedPrograms

set_option linter.unusedSectionVars false

namespace LockedPrograms

open LockedCalls

variable {κ σ ε π ρ χ τ δ ς : Type}

/-! ### Programs that end by themselves -/

/-- The programs end by themselves, and from fine states they make safe calls only. -/
structure Ends (m : Machine κ σ ε π ρ χ) (next : ς → Next κ ρ δ ς) (safe : π → Prop)
    (fine : ς → Prop) (effort : ς → ℕ) : Prop where
  own : ∀ {state act sight side side' after}, next state = .own act →
    act sight side = some (side', after) → fine state → fine after ∧ effort after < effort state
  call : ∀ {state call receive}, next state = .call call receive → fine state →
    safe (m.start call) ∧ ∀ result, fine (receive result) ∧ effort (receive result) < effort state

section Progress

variable (m : Machine κ σ ε π ρ χ) (next : ς → Next κ ρ δ ς) (safe : π → Prop) (fine : ς → Prop)
  (initial : σ) (starts : τ → ς) [DecidableEq τ]

/-- What every pool satisfies that has come from fine states. -/
structure Fine (pool : Pool κ σ π ρ χ τ δ ς) : Prop where
  ordered : ∃ execution state, Ordered m next initial starts pool execution state
  allSafe : AllSafe safe pool.system
  states : ∀ thread, fine (pool.states thread)

/-- A pool and one that a step makes of it. -/
def Turns (after before : Pool κ σ π ρ χ τ δ ς) : Prop :=
  ∃ step, turn m next step before = some after

/-- No step can be made. -/
def Stuck (pool : Pool κ σ π ρ χ τ δ ς) : Prop := ∀ step, turn m next step pool = none

/-- The thread is between two calls, and its program has stopped or has to wait. -/
def Halts (pool : Pool κ σ π ρ χ τ δ ς) (thread : τ) : Prop :=
  pool.system.threads thread = none ∧ (next (pool.states thread) = .stop ∨
    ∃ act, next (pool.states thread) = .own act ∧ act (sightOf m pool.system) pool.side = none)

/-- A thread between two calls, counted. -/
def idle : Option (Running κ π) → ℕ
  | none => 1
  | some _ => 0

/-- What the threads have still to do: a call not made yet counts for more than one under way. -/
def toDo [Fintype τ] (effort : ς → ℕ) (pool : Pool κ σ π ρ χ τ δ ς) : ℕ :=
  ∑ thread, (2 * effort (pool.states thread) + idle (pool.system.threads thread))

/-- What the threads have still to do, and then the calls under way. -/
def distance [Fintype τ] (left : π → σ → ℕ) (childLeft : χ → ℕ) (effort : ς → ℕ)
    (pool : Pool κ σ π ρ χ τ δ ς) : ℕ ×ₗ ℕ ×ₗ ℕ ×ₗ ℕ :=
  toLex (toDo effort pool, remaining m left childLeft pool.system)

end Progress

section Ending

variable {m : Machine κ σ ε π ρ χ} {next : ς → Next κ ρ δ ς} {safe : π → Prop} {left : π → σ → ℕ}
  {childLeft : χ → ℕ} {fine : ς → Prop} {effort : ς → ℕ} {initial : σ} {side : δ} {starts : τ → ς}
  {pool pool' : Pool κ σ π ρ χ τ δ ς} {thread : τ} [DecidableEq τ]

theorem forall_states {states : τ → ς} {own : ς} (before : ∀ other, fine (states other))
    (mine : fine own) (other : τ) : fine (Function.update states thread own other) := by
  by_cases same : other = thread
  · subst same
    rwa [Function.update_self]
  · rw [Function.update_of_ne same]
    exact before other

/-- The state a thread comes to within a call is fine, and another one only if it is nearer. -/
theorem received_fine (ends : Ends m next safe fine effort) {own : ς} (here : fine own)
    (point : π) : fine (received m next point own) := by
  rw [received]
  split
  · rename_i calls
    exact ((ends.call calls here).2 _).1
  · exact here

theorem turn_fine (bounded : Bounded m safe left childLeft) (ends : Ends m next safe fine effort)
    (sound : Fine m next safe fine initial starts pool) {step : Turn τ}
    (stepped : turn m next step pool = some pool') :
    Fine m next safe fine initial starts pool' := by
  obtain ⟨execution, state, ordered⟩ := sound.ordered
  obtain ⟨execution', state', ordered', _⟩ := turn_ordered ordered stepped
  suffices rest : AllSafe safe pool'.system ∧ ∀ thread, fine (pool'.states thread) from
    ⟨⟨execution', state', ordered'⟩, rest.1, rest.2⟩
  cases turn_turned stepped with
  | child _ _ => exact ⟨sound.allSafe, sound.states⟩
  | own idle own acted =>
    exact ⟨sound.allSafe, forall_states sound.states (ends.own own acted (sound.states _)).1⟩
  | call idle calls =>
    refine ⟨forall_update (fun _ same => ?_) fun other running _ => sound.allSafe other running,
      sound.states⟩
    cases same
    exact (ends.call calls (sound.states _)).1
  | advance there advanced =>
    exact ⟨advance_safe bounded sound.allSafe there advanced,
      forall_states sound.states (received_fine ends (sound.states _) _)⟩

/-! ### They end together -/

section Decrease

variable [Fintype τ]

/-- One thread moves on. -/
theorem toDo_update (effort : ς → ℕ) (pool : Pool κ σ π ρ χ τ δ ς) (side' : δ) (own : ς)
    {system : System κ σ π ρ χ τ} {value : Option (Running κ π)}
    (threads : system.threads = Function.update pool.system.threads thread value) :
    toDo effort ⟨system, side', Function.update pool.states thread own⟩ +
        (2 * effort (pool.states thread) + idle (pool.system.threads thread)) =
      toDo effort pool + (2 * effort own + idle value) := by
  have off : ∀ other ≠ thread,
      2 * effort (Function.update pool.states thread own other) + idle (system.threads other) =
        2 * effort (pool.states other) + idle (pool.system.threads other) := by
    intro other different
    rw [threads, Function.update_of_ne different, Function.update_of_ne different]
  have differ := Interleaving.sum_differ off
  rwa [threads, Function.update_self, Function.update_self, ← threads] at differ

theorem distance_lt_iff : distance m left childLeft effort pool' <
    distance m left childLeft effort pool ↔ toDo effort pool' < toDo effort pool ∨
      toDo effort pool' = toDo effort pool ∧
        remaining m left childLeft pool'.system < remaining m left childLeft pool.system := by
  rw [distance, distance, Prod.Lex.toLex_lt_toLex]

/-- **Every step** brings the pool nearer to its end. -/
theorem turn_nearer (bounded : Bounded m safe left childLeft) (ends : Ends m next safe fine effort)
    (sound : Fine m next safe fine initial starts pool) (turns : Turns m next pool' pool) :
    distance m left childLeft effort pool' < distance m left childLeft effort pool := by
  obtain ⟨execution, state, ordered⟩ := sound.ordered
  obtain ⟨step, stepped⟩ := turns
  rw [distance_lt_iff]
  cases turn_turned stepped with
  | child there moved => exact Or.inr ⟨rfl, child_smaller bounded there moved⟩
  | @own thread _ act side' after idle own acted =>
    left
    have same := (Function.update_eq_self thread pool.system.threads).symm
    have moved := toDo_update effort pool side' after same
    have less := (ends.own own acted (sound.states thread)).2
    rw [idle] at moved
    omega
  | @call thread _ call receive free calls =>
    left
    have threads : ({ pool.system with
        threads := Function.update pool.system.threads thread (some ⟨call, m.start call, 0⟩) } :
        System κ σ π ρ χ τ).threads = Function.update pool.system.threads thread _ := rfl
    have moved := toDo_update effort pool pool.side (pool.states thread) threads
    rw [free, Function.update_eq_self, idle, idle] at moved
    omega
  | @advance thread forks running after there advanced =>
    have stands := ordered.threads thread
    rw [there] at stands
    have fired : fire m (.advance thread forks) pool.system = some after := by
      rw [fire, there]
      exact advanced
    have smaller := going_smaller bounded ordered.calls sound.allSafe
      ⟨.advance thread forks, trivial, fired⟩
    -- as long as the call is not over, its thread has as much to do as before
    have stays : ∀ moved, after.threads =
        Function.update pool.system.threads thread (some moved) →
        m.phase running.point ≠ .after →
        toDo effort ⟨after, pool.side, Function.update pool.states thread
          (received m next running.point (pool.states thread))⟩ = toDo effort pool := by
      intro moved threads early
      rw [received_early early]
      have step := toDo_update effort pool pool.side (pool.states thread) threads
      rw [there, idle, idle] at step
      omega
    cases advance_advances ordered.calls there advanced with
    | works threads _ early _ _ => exact Or.inr ⟨stays _ threads early, smaller⟩
    | leaves threads _ early _ _ => exact Or.inr ⟨stays _ threads early, smaller⟩
    | @returns result threads returns _ =>
      left
      generalize owned thread execution = served at stands
      cases stands with
      | within _ _ early => exact absurd (phase_of_ret returns) early
      | @behind _ _ _ receive _ _ calls _ =>
        have less := ((ends.call calls (sound.states thread)).2 result).2
        rw [received_ret returns calls]
        have step := toDo_update effort pool pool.side (receive result) threads
        rw [there, idle, idle] at step
        omega

/-- **No schedule goes on for ever.** -/
theorem pool_acc (bounded : Bounded m safe left childLeft) (ends : Ends m next safe fine effort)
    (sound : Fine m next safe fine initial starts pool) : Acc (Turns m next) pool := by
  induction measure : distance m left childLeft effort pool using WellFoundedLT.induction
    generalizing pool with
  | _ bound ih =>
    refine Acc.intro pool fun pool' turns => ?_
    have nearer := turn_nearer bounded ends sound turns
    obtain ⟨step, stepped⟩ := turns
    exact ih _ (measure ▸ nearer) (turn_fine bounded ends sound stepped) rfl

end Decrease

/-! ### They do not stop before -/

/-- **A pool that can go no further**: no program is within a call, each has stopped or waits, and
every child has come to its end. -/
theorem pool_settled (bounded : Bounded m safe left childLeft)
    (sound : Fine m next safe fine initial starts pool) (stuck : Stuck m next pool) :
    (∀ thread, Halts m next pool thread) ∧
      ∀ entry ∈ pool.system.children, m.childStep entry.2 = none := by
  obtain ⟨execution, state, ordered⟩ := sound.ordered
  have settled : Settled m pool.system := by
    intro event isStep
    cases event with
    | call thread call => exact isStep.elim
    | child index =>
      have still := stuck (.child index)
      rwa [turn, Option.map_eq_none_iff] at still
    | advance thread forks =>
      have still := stuck (.go thread forks)
      rw [turn, go] at still
      rw [fire]
      cases there : pool.system.threads thread with
      | none => rfl
      | some running =>
        rw [there] at still
        exact Option.map_eq_none_iff.mp still
  have idle := settled_idle bounded
    ⟨⟨execution.map Prod.snd, state, ordered.calls⟩, sound.allSafe⟩ settled
  refine ⟨fun thread => ⟨idle thread, ?_⟩, settled_children settled⟩
  have still := stuck (.go thread true)
  rw [turn, go, idle thread] at still
  cases does : next (pool.states thread) with
  | stop => exact Or.inl rfl
  | own act =>
    simp only [does] at still
    exact Or.inr ⟨act, rfl, Option.map_eq_none_iff.mp still⟩
  | call call receive =>
    simp only [does, fire, idle thread] at still
    cases still

theorem run_fine (bounded : Bounded m safe left childLeft) (ends : Ends m next safe fine effort)
    (sound : Fine m next safe fine initial starts pool) {turns : List (Turn τ)}
    (ran : run m next turns pool = some pool') : Fine m next safe fine initial starts pool' :=
  Interleaving.run_keeps (fun _ _ _ sound stepped => turn_fine bounded ends sound stepped) sound ran

theorem begin_fine (m : Machine κ σ ε π ρ χ) (next : ς → Next κ ρ δ ς) {safe : π → Prop}
    (initial : σ) (side : δ) (states : ∀ thread, fine (starts thread)) :
    Fine m next safe fine initial starts (begin initial side starts) :=
  ⟨⟨[], initial, begin_ordered m next initial side starts⟩, nofun, states⟩

end Ending

/-! ### What the programs keep -/

section Keeps

variable [DecidableEq τ]

/-- Every step of a program keeps the invariant of what the programs share. -/
structure Keeps (next : ς → Next κ ρ δ ς) (inv : δ → (τ → ς) → Prop) : Prop where
  own : ∀ {states side thread act sight side' after}, inv side states →
    next (states thread) = .own act → act sight side = some (side', after) →
    inv side' (Function.update states thread after)
  call : ∀ {states side thread call receive}, inv side states →
    next (states thread) = .call call receive → ∀ result,
    inv side (Function.update states thread (receive result))

variable {m : Machine κ σ ε π ρ χ} {next : ς → Next κ ρ δ ς} {inv : δ → (τ → ς) → Prop}
  {pool pool' : Pool κ σ π ρ χ τ δ ς}

theorem turn_keeps (keeps : Keeps next inv) (before : inv pool.side pool.states) {step : Turn τ}
    (stepped : turn m next step pool = some pool') : inv pool'.side pool'.states := by
  cases turn_turned stepped with
  | child _ _ => exact before
  | own _ own acted => exact keeps.own before own acted
  | call _ _ => exact before
  | @advance thread _ running _ _ _ =>
    dsimp only
    rw [received]
    split
    · rename_i calls
      exact keeps.call before calls _
    · rwa [Function.update_eq_self]

/-- **The run lemma.** -/
theorem run_keeps (keeps : Keeps next inv) {turns : List (Turn τ)}
    (before : inv pool.side pool.states) (ran : run m next turns pool = some pool') :
    inv pool'.side pool'.states := by
  have step : ∀ first (pool after : Pool κ σ π ρ χ τ δ ς), inv pool.side pool.states →
      turn m next first pool = some after → inv after.side after.states :=
    fun _ _ _ before stepped => turn_keeps keeps before stepped
  exact @Interleaving.run_keeps _ _ _ _ _ (fun pool => inv pool.side pool.states) step _ before ran

end Keeps

end LockedPrograms
