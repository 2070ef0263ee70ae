/-
**The limit on backups (`CMD_BACKUP` of `run_job` in `server/main.c`).**

A thread that comes to a BACKUP command locks `n_current_backups_lock`, and there either counts
itself in `active_backups` or, when the counter has reached `max_backups`, waits for a child to
exit. It forks after it has unlocked. `Backups.fire` takes any of these steps for any thread, and
lets any child exit; other commands of the jobs leave all of this alone.

`wait(NULL)` reaps a child that has exited, blocks while there are only running ones, and fails at
once when there is none. In the last case nothing has made room for the fork that follows:
`backup_limit` says that this is the only way past the limit.
-/

import Kvs.Lib.Interleaving

set_option linter.unusedSectionVars false

namespace Kvs.Server

/-! ### The threads and their children -/

/-- Where a thread stands with a BACKUP command; it holds the lock from `checking` to
`unlocking`. -/
inductive BackupPoint where
  /-- Between two BACKUP commands, or waiting for the lock. -/
  | locking
  | checking
  /-- In `wait(NULL)`. -/
  | waiting
  | unlocking
  /-- In `kvs_backup`. -/
  | forking
deriving DecidableEq

/-- The counter and its lock, the threads, and the children of the process. -/
structure Backups (τ : Type) where
  activeBackups : ℕ
  /-- The holder of `n_current_backups_lock`. -/
  holder : Option τ
  threads : τ → BackupPoint
  /-- The children that were forked and have not exited. -/
  running : ℕ
  /-- The children that have exited and were not waited for. -/
  exited : ℕ

/-- Whose turn it is. -/
inductive BackupEvent (τ : Type) where
  /-- A thread's next step; if it is a fork, whether it succeeds. -/
  | thread (thread : τ) (forks : Bool)
  | childExits

namespace Backups

variable {τ : Type}

/-- No backup made. -/
def start : Backups τ := ⟨0, none, fun _ => .locking, 0, 0⟩

variable [DecidableEq τ]

/-- A thread's next step; none when it waits for the lock or for a child. -/
def step (maxBackups : ℕ) (thread : τ) (forks : Bool) (state : Backups τ) :
    Option (Backups τ) :=
  let goTo (point : BackupPoint) := Function.update state.threads thread point
  match state.threads thread with
  | .locking =>
    if state.holder = none then
      some { state with holder := some thread, threads := goTo .checking }
    else none
  | .checking =>
    if state.activeBackups ≥ maxBackups then some { state with threads := goTo .waiting }
    else some { state with
      activeBackups := state.activeBackups + 1
      threads := goTo .unlocking }
  | .waiting =>
    if 0 < state.exited then
      some { state with exited := state.exited - 1, threads := goTo .unlocking }
    else if 0 < state.running then none
    else some { state with threads := goTo .unlocking }
  | .unlocking => some { state with holder := none, threads := goTo .forking }
  | .forking =>
    if forks then some { state with running := state.running + 1, threads := goTo .locking }
    else some { state with threads := goTo .locking }

/-- One step of a thread or of a child. -/
def fire (maxBackups : ℕ) : BackupEvent τ → Backups τ → Option (Backups τ)
  | .thread thread forks, state => state.step maxBackups thread forks
  | .childExits, state =>
    if 0 < state.running then
      some { state with running := state.running - 1, exited := state.exited + 1 }
    else none

end Backups

/-! ### The invariant -/

open Interleaving Backups

/-- A thread is between its section and its fork. -/
def BackupPoint.pending : BackupPoint → ℕ
  | .unlocking | .forking => 1
  | .locking | .checking | .waiting => 0

theorem BackupPoint.pending_le_one (point : BackupPoint) : point.pending ≤ 1 := by
  cases point <;> decide

variable {τ : Type} [DecidableEq τ] [Fintype τ] {maxBackups : ℕ} {state next : Backups τ}

/-- No thread waits with no child left while `max_backups` threads are between their section and
their fork. -/
def Reaps (maxBackups : ℕ) : BackupEvent τ → Backups τ → Prop
  | .thread thread _, state =>
    state.threads thread = .waiting → state.running = 0 → state.exited = 0 →
      total BackupPoint.pending state.threads < maxBackups
  | .childExits, _ => True

/-- Every child not waited for, and every thread about to fork, is counted in `active_backups`. -/
structure Counted (maxBackups : ℕ) (state : Backups τ) : Prop where
  counted : state.running + state.exited + total BackupPoint.pending state.threads ≤
    state.activeBackups
  limited : state.activeBackups ≤ maxBackups
  full : ∀ thread, state.threads thread = .waiting → maxBackups ≤ state.activeBackups

theorem start_counted : Counted maxBackups (Backups.start : Backups τ) where
  counted := by simp [Backups.start, total, BackupPoint.pending]
  limited := Nat.zero_le _
  full _ waiting := by cases waiting

/-- A thread moves on and does not start to wait, and the counter grows by what is added to the
children and to the threads about to fork. -/
theorem Counted.move (inv : Counted maxBackups state) {thread : τ} {point : BackupPoint}
    {active running exited : ℕ} (holder : Option τ) (notWaiting : point ≠ .waiting)
    (grows : state.activeBackups ≤ active) (limited : active ≤ maxBackups)
    (covered : running + exited + point.pending + state.activeBackups ≤
      state.running + state.exited + (state.threads thread).pending + active) :
    Counted maxBackups
      ⟨active, holder, Function.update state.threads thread point, running, exited⟩ where
  counted := by
    have weights := total_update BackupPoint.pending state.threads thread point
    have counted := inv.counted
    show running + exited +
      total BackupPoint.pending (Function.update state.threads thread point) ≤ active
    omega
  limited := limited
  full := by
    refine (Function.forall_update_iff state.threads fun _ point =>
      point = .waiting → maxBackups ≤ active).mpr ⟨fun waiting => absurd waiting notWaiting, ?_⟩
    exact fun other _ waiting => (inv.full other waiting).trans grows

/-- **The step lemma.** -/
theorem fire_counted {event : BackupEvent τ} (inv : Counted maxBackups state)
    (reaps : Reaps maxBackups event state)
    (fired : Backups.fire maxBackups event state = some next) : Counted maxBackups next := by
  cases event with
  | childExits =>
    simp only [Backups.fire] at fired
    split at fired
    · cases fired
      refine ⟨?_, inv.limited, inv.full⟩
      show state.running - 1 + (state.exited + 1) + total BackupPoint.pending state.threads ≤
        state.activeBackups
      have counted := inv.counted
      omega
    · cases fired
  | thread thread forks =>
    simp only [Backups.fire, Backups.step] at fired
    cases place : state.threads thread with
    | locking =>
      simp only [place] at fired
      split at fired
      · cases fired
        exact inv.move _ (by decide) le_rfl inv.limited (by rw [place]; exact le_rfl)
      · cases fired
    | checking =>
      simp only [place] at fired
      split at fired
      · rename_i reached
        cases fired
        have weights := total_update BackupPoint.pending state.threads thread .waiting
        have counted := inv.counted
        rw [place] at weights
        refine ⟨?_, inv.limited, fun _ _ => reached⟩
        simp only [BackupPoint.pending] at weights ⊢
        omega
      · rename_i room
        cases fired
        refine inv.move _ (by decide) (Nat.le_succ _) (Nat.lt_of_not_le room) ?_
        simp only [place, BackupPoint.pending]
        omega
    | waiting =>
      simp only [place] at fired
      split at fired
      · cases fired
        refine inv.move _ (by decide) le_rfl inv.limited ?_
        simp only [place, BackupPoint.pending]
        omega
      · split at fired
        · cases fired
        · -- `wait` fails: the fork to come is covered by the threads that do not fork
          cases fired
          have room := reaps place (by omega) (by omega)
          have atLimit := inv.full thread place
          have weights := total_update BackupPoint.pending state.threads thread .unlocking
          rw [place] at weights
          refine ⟨?_, inv.limited, fun _ _ => atLimit⟩
          simp only [BackupPoint.pending] at weights ⊢
          omega
    | unlocking =>
      simp only [place] at fired
      cases fired
      exact inv.move _ (by decide) le_rfl inv.limited (by rw [place]; exact le_rfl)
    | forking =>
      simp only [place] at fired
      split at fired
      · cases fired
        refine inv.move _ (by decide) le_rfl inv.limited ?_
        simp only [place, BackupPoint.pending]
        omega
      · cases fired
        refine inv.move _ (by decide) le_rfl inv.limited ?_
        simp only [place, BackupPoint.pending]
        omega

/-! ### The limit -/

/-- **The backup limit.** In every run in which no thread waits with no child left while
`max_backups` threads are between their section and their fork, there are never more than
`max_backups` children. -/
theorem backup_limit (maxBackups : ℕ) (events : List (BackupEvent τ)) (final : Backups τ)
    (reaps : Meets (fire maxBackups) (Reaps maxBackups) events Backups.start)
    (ran : run (fire maxBackups) events Backups.start = some final) :
    final.running ≤ maxBackups := by
  have inv := run_keeps_of_meets (fun _ _ _ inv meets fired => fire_counted inv meets fired)
    start_counted reaps ran
  have counted := inv.counted
  have limited := inv.limited
  omega

instance decidableReaps (maxBackups : ℕ) :
    (event : BackupEvent τ) → (state : Backups τ) → Decidable (Reaps maxBackups event state)
  | .thread thread _, state =>
    inferInstanceAs (Decidable (state.threads thread = .waiting → state.running = 0 →
      state.exited = 0 → total BackupPoint.pending state.threads < maxBackups))
  | .childExits, _ => inferInstanceAs (Decidable True)

/-- Two threads, one backup at a time: the first forks, and the second comes to the limit and waits
until the child has exited. -/
def backupThenWait : List (BackupEvent Bool) :=
  List.replicate 4 (.thread false true) ++ List.replicate 2 (.thread true true) ++ [.childExits] ++
    List.replicate 3 (.thread true true)

/-- The second thread reaps the first one's child, and forks. -/
theorem backup_limit_two_threads :
    ∃ final, run (fire 1) backupThenWait Backups.start = some final ∧
      final.running = 1 ∧ final.exited = 0 ∧ final.running ≤ 1 := by
  have reached : (run (fire 1) backupThenWait Backups.start).map
      (fun final => (final.running, final.exited)) = some (1, 0) := by decide
  have reaps : Meets (fire 1) (Reaps 1) backupThenWait Backups.start := by decide
  obtain ⟨final, ran, children⟩ := Option.map_eq_some_iff.mp reached
  exact ⟨final, ran, congrArg Prod.fst children, congrArg Prod.snd children,
    backup_limit 1 _ final reaps ran⟩

/-- Two threads, one backup at a time: the first counts itself and has not forked yet, so the second
waits for nobody, and both fork. -/
theorem two_backups_at_once :
    ∃ final, run (fire 1)
        [.thread 0 true, .thread 0 true, .thread 0 true, .thread 1 true, .thread 1 true,
          .thread 1 true, .thread 1 true, .thread 1 true, .thread 0 true]
        (Backups.start : Backups (Fin 2)) = some final ∧ ¬ final.running ≤ 1 :=
  ⟨_, rfl, by decide⟩

end Kvs.Server
