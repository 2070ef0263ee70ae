/-
**The limit on backups in the whole server.**

`BackupLimit` has the section of a BACKUP by itself: the fork is one step, and the children are
counted. Here a thread of `run_job` comes through the section to a store call, in which it forks
with the table's lock held, and the children are processes that write their files, beside other
threads and their calls (`Serialize`).

`jobs_refine_backups` says that the server refines the section: of every run, the steps of the
section, the forks and the exits of the children are a run of `Backups`. What is proved of the
section is true of the server then. `jobs_backup_limit` is the limit: as long as no more threads run
jobs than backups are allowed, no more children than that are running, however many sessions there
are.
-/

import Kvs.Concurrency.Serialize

set_option linter.unusedSectionVars false

namespace Kvs.Server

open LockedCalls Interleaving
open LockedPrograms (Sight sightOf turn_turned)

/-! ### Where a thread stands -/

/-- The fork of a BACKUP is still ahead. -/
def Point.Forks : Point → Prop
  | .entering .backup | .forking => True
  | _ => False

theorem Point.Working.not_forks {point : Point} (working : point.Working) : ¬ point.Forks := by
  cases point <;> first | exact working.elim | exact id

section Place

variable (maxBackups : ℕ)

/-- Where a thread stands with a BACKUP, by its own state and the call it is within. -/
inductive Place : ServerThread → Option (Running Operation Point) → BackupPoint → Prop where
  /-- A session makes no backups. -/
  | session {calls : List Operation} {running : Option (Running Operation Point)}
      (plain : .backup ∉ calls) (early : ∀ within, running = some within → ¬ within.point.Forks) :
      Place (.session calls) running .locking
  | other {job : JobThread} (first : job.pending.head? ≠ some .backup) :
      Place (.job job) none .locking
  | backing {job : JobThread} (first : job.pending.head? = some .backup) :
      Place (.job job) none job.point
  | forking {job : JobThread} {running : Running Operation Point} {operation : Operation}
      {receive : Reply → JobThread} (calls : job.next maxBackups = .call operation receive)
      (ahead : running.point.Forks) : Place (.job job) (some running) .forking
  | forked {job : JobThread} {running : Running Operation Point} {operation : Operation}
      {receive : Reply → JobThread} (calls : job.next maxBackups = .call operation receive)
      (behind : ¬ running.point.Forks) : Place (.job job) (some running) .locking

end Place

variable {maxBackups : ℕ}

theorem Place.turned {job : JobThread} (point : job.point = .locking) :
    Place maxBackups (.job job) none .locking := by
  by_cases first : job.pending.head? = some .backup
  · rw [← point]
    exact .backing first
  · exact .other first

/-- A job that has read no command yet, or a session, which makes no backups. -/
def ServerThread.Fresh : ServerThread → Prop
  | job thread => thread.pending = []
  | session calls => .backup ∉ calls

theorem ServerThread.Fresh.place {thread : ServerThread} (fresh : thread.Fresh) :
    Place maxBackups thread none .locking := by
  cases thread with
  | job job =>
    refine .other ?_
    rw [show job.pending = [] from fresh]
    decide
  | session calls => exact .session fresh (fun _ same => by cases same)

/-! ### The steps of the section -/

variable {τ : Type} [DecidableEq τ]

/-- What the section works on, and what there is to see of the children. -/
structure Counts (sight : Sight) (counter : BackupCounter) (backups : Backups τ) : Prop where
  active : backups.activeBackups = counter.activeBackups
  lock : backups.holder = none ↔ counter.locked = false
  exited : backups.exited + counter.reaped = sight.ended
  running : backups.running + sight.ended = sight.made

/-- A step of the section in a job is one in `Backups`. -/
theorem step_backups {sight : Sight} {counter counter' : BackupCounter} {backups : Backups τ}
    {thread : τ} {point : BackupPoint} (counts : Counts sight counter backups) (forks : Bool)
    (stepped : counter.step maxBackups sight (backups.threads thread) = some (counter', point)) :
    ∃ backups', backups.step maxBackups thread forks = some backups' ∧
      Counts sight counter' backups' ∧
      backups'.threads = Function.update backups.threads thread point := by
  obtain ⟨active, lock, exited, running⟩ := counts
  rw [Backups.step]
  cases place : backups.threads thread with
  | locking =>
    simp only [place, BackupCounter.step] at stepped
    split at stepped
    · cases stepped
    · rename_i free
      cases stepped
      dsimp only
      rw [if_pos (lock.mpr (Bool.eq_false_of_not_eq_true free))]
      exact ⟨_, rfl, ⟨active, by simp, exited, running⟩, rfl⟩
  | checking =>
    simp only [place, BackupCounter.step, ← active] at stepped
    dsimp only
    split at stepped
    · rename_i full
      cases stepped
      rw [if_pos full]
      exact ⟨_, rfl, ⟨active, lock, exited, running⟩, rfl⟩
    · rename_i room
      cases stepped
      rw [if_neg room]
      exact ⟨_, rfl, ⟨rfl, lock, exited, running⟩, rfl⟩
  | waiting =>
    simp only [place, BackupCounter.step] at stepped
    dsimp only
    split at stepped
    · rename_i ended
      cases stepped
      have left : 0 < backups.exited := by omega
      have exited' : backups.exited - 1 + (counter.reaped + 1) = sight.ended := by omega
      rw [if_pos left]
      exact ⟨_, rfl, ⟨active, lock, exited', running⟩, rfl⟩
    · split at stepped
      · cases stepped
      · -- `wait` fails in both
        rename_i ended all
        cases stepped
        have left : ¬ 0 < backups.exited := by omega
        have gone : ¬ 0 < backups.running := by omega
        rw [if_neg left, if_neg gone]
        exact ⟨_, rfl, ⟨active, lock, exited, running⟩, rfl⟩
  | unlocking =>
    simp only [place, BackupCounter.step] at stepped
    cases stepped
    exact ⟨_, rfl, ⟨active, iff_of_true rfl rfl, exited, running⟩, rfl⟩
  | forking =>
    simp only [place, BackupCounter.step] at stepped
    cases stepped

/-! ### The steps within a call -/

variable {system after : System Operation Shared Point Reply BackupChild τ} {thread : τ}
  {forks : Bool} {running : Running Operation Point}

section Calls

variable (system after thread forks running)

/-- What a step within a call is to a BACKUP. -/
inductive CallStep : Prop where
  | goes {moved : Running Operation Point} (busy : ∀ reply, instr running.point ≠ .ret reply)
      (threads : after.threads = Function.update system.threads thread (some moved))
      (same : moved.point.Forks ↔ running.point.Forks)
      (children : after.children = system.children)
  | forks {moved : Running Operation Point} (busy : ∀ reply, instr running.point ≠ .ret reply)
      (threads : after.threads = Function.update system.threads thread (some moved))
      (ahead : running.point.Forks) (behind : ¬ moved.point.Forks)
      (children : after.children = if forks then
        system.children ++ [(running.ticket, .copy system.shared)] else system.children)
  | returns {reply : Reply} (ends : instr running.point = .ret reply)
      (threads : after.threads = Function.update system.threads thread none)
      (behind : ¬ running.point.Forks) (children : after.children = system.children)

end Calls

theorem lock_forks {point next : Point} (instruction : instr point = .lock next) :
    next.Forks ↔ point.Forks := by
  have before : phase point = .before := (phase_of_lock (m := kvsMachine) instruction).1
  cases point with
  | entering operation =>
    cases instruction
    cases operation <;> exact Iff.rfl
  | _ => cases before

theorem not_forks_of_after {point : Point} (behind : phase point = .after) : ¬ point.Forks := by
  cases point with
  | returning reply => exact id
  | _ => cases behind

theorem access_not_forks {point : Point} {action : Shared → Except Fault (Shared × Point)}
    (access : instr point = .access action) : ¬ point.Forks := by
  have inside : phase point = .inside := (phase_of_access (m := kvsMachine) access).1
  cases point with
  | entering operation => cases inside
  | forking => cases access
  | _ => exact id

theorem unlock_not_forks {point next : Point} (unlock : instr point = .unlock next) :
    ¬ point.Forks := by
  have inside : phase point = .inside := (phase_of_unlock (m := kvsMachine) unlock).1
  cases point with
  | entering operation => cases inside
  | forking => cases unlock
  | _ => exact id

/-- **The inversion lemma** of a step within a call. -/
theorem advance_callStep (advanced : advance kvsMachine thread forks running system = some after) :
    CallStep system after thread forks running := by
  rw [advance] at advanced
  split at advanced
  · rename_i next instruction
    split at advanced
    · cases advanced
      exact .goes (fun _ ends => by cases instruction.symm.trans ends) rfl
        (lock_forks instruction) rfl
    · cases advanced
  · rename_i action instruction
    split at advanced
    · cases advanced
    · rename_i shared next done
      cases advanced
      exact .goes (fun _ ends => by cases instruction.symm.trans ends) rfl
        (iff_of_false (access_working instruction done).not_forks (access_not_forks instruction))
        rfl
  · rename_i copy next instruction
    cases advanced
    have ahead := fork_forking instruction
    have instruction' : instr .forking = .fork copy next := ahead ▸ instruction
    cases instruction'
    refine .forks (fun _ ends => by cases instruction.symm.trans ends) rfl ?_ id rfl
    rw [ahead]
    trivial
  · rename_i next instruction
    cases advanced
    have behind : phase next = .after := (phase_of_unlock (m := kvsMachine) instruction).2
    exact .goes (fun _ ends => by cases instruction.symm.trans ends) rfl
      (iff_of_false (not_forks_of_after behind) (unlock_not_forks instruction)) rfl
  · rename_i reply instruction
    cases advanced
    have behind : phase running.point = .after := phase_of_ret (m := kvsMachine) instruction
    exact .returns instruction rfl (not_forks_of_after behind) rfl

/-! ### The refinement -/

/-- The server as far as backups go. -/
structure Mirrors (maxBackups : ℕ) (pool : ServerPool τ) (backups : Backups τ) : Prop where
  places : ∀ thread, Place maxBackups (pool.states thread) (pool.system.threads thread)
    (backups.threads thread)
  counts : Counts (sightOf kvsMachine pool.system) pool.side backups

variable {pool pool' : ServerPool τ} {backups backups' : Backups τ}

/-- One thread moves on. -/
theorem Mirrors.moves (mirrors : Mirrors maxBackups pool backups) {counter : BackupCounter}
    {own : ServerThread} {value : Option (Running Operation Point)} {point : BackupPoint}
    (threads : after.threads = Function.update pool.system.threads thread value)
    (points : backups'.threads = Function.update backups.threads thread point)
    (place : Place maxBackups own value point)
    (counts : Counts (sightOf kvsMachine after) counter backups') :
    Mirrors maxBackups ⟨after, counter, Function.update pool.states thread own⟩ backups' := by
  refine ⟨fun other => ?_, counts⟩
  dsimp only
  rw [threads, points]
  by_cases same : other = thread
  · subst same
    rwa [Function.update_self, Function.update_self, Function.update_self]
  · rw [Function.update_of_ne same, Function.update_of_ne same, Function.update_of_ne same]
    exact mirrors.places other

/-- One thread moves on, in a step that is none of `Backups`. -/
theorem Mirrors.stays (mirrors : Mirrors maxBackups pool backups)
    {own : ServerThread} {value : Option (Running Operation Point)}
    (threads : after.threads = Function.update pool.system.threads thread value)
    (children : after.children = pool.system.children)
    (place : Place maxBackups own value (backups.threads thread)) :
    Mirrors maxBackups ⟨after, pool.side, Function.update pool.states thread own⟩ backups := by
  have sight : sightOf kvsMachine after = sightOf kvsMachine pool.system := by
    rw [sightOf, sightOf, children]
  refine mirrors.moves threads (Function.update_eq_self ..).symm place ?_
  rw [sight]
  exact mirrors.counts

/-- A call of a job ends with the job at its next command. -/
theorem received_locking {job : JobThread} {operation : Operation} {receive : Reply → JobThread}
    (calls : job.next maxBackups = .call operation receive) (reply : Reply) :
    (receive reply).point = .locking := by
  obtain ⟨garbage, file, pending, point, out⟩ := job
  rw [JobThread.next] at calls
  split at calls
  · split at calls
    · cases calls
    · split at calls <;> cases calls
  · split at calls
    · cases calls
    · split at calls
      · cases calls
      · cases calls
        rfl

/-! ### The places before and after a step -/

section Steps

variable {state : ServerThread} {job : JobThread} {point : BackupPoint}
  {running moved : Running Operation Point}

theorem Place.of_other (place : Place maxBackups (.job job) none point)
    (first : job.pending.head? ≠ some .backup) : point = .locking := by
  cases place with
  | other => rfl
  | backing backup => exact absurd backup first

theorem Place.of_backup (place : Place maxBackups (.job job) none point)
    (first : job.pending.head? = some .backup) : point = job.point := by
  cases place with
  | other backup => exact absurd first backup
  | backing => rfl

theorem forks_entering {operation : Operation} :
    (Point.entering operation).Forks ↔ operation = .backup := by
  cases operation <;> simp [Point.Forks]

theorem job_calls {operation : Operation} {receive : Reply → ServerThread}
    (calls : (ServerThread.job job).next maxBackups = .call operation receive) :
    ∃ receive, job.next maxBackups = .call operation receive := by
  rw [ServerThread.next] at calls
  split at calls
  · cases calls
  · cases calls
  · rename_i calls'
    cases calls
    exact ⟨_, calls'⟩

theorem Place.call {operation : Operation} {receive : Reply → ServerThread}
    (place : Place maxBackups state none point)
    (calls : state.next maxBackups = .call operation receive) :
    Place maxBackups state (some ⟨operation, .entering operation, 0⟩) point := by
  have does := next_does maxBackups state
  rw [calls] at does
  cases does with
  | @calls job dispatch pending _ first something late =>
    obtain ⟨receive', calls'⟩ := job_calls calls
    by_cases backup : operation = .backup
    · subst backup
      have head : job.pending.head? = some .backup := by
        rw [first, dispatch.eq_backup something]
        rfl
      rw [place.of_backup head, late rfl]
      exact .forking calls' trivial
    · have head := head_ne_backup first fun same =>
        backup (Option.some.inj (something.symm.trans same))
      rw [place.of_other head]
      exact .forked calls' fun ahead => backup (forks_entering.mp ahead)
  | serves =>
    cases place with
    | session plain =>
      refine .session plain fun within same => ?_
      cases same
      exact fun ahead => plain (forks_entering.mp ahead ▸ List.mem_cons_self)

theorem Place.goes (place : Place maxBackups state (some running) point)
    (same : moved.point.Forks ↔ running.point.Forks) :
    Place maxBackups state (some moved) point := by
  cases place with
  | session plain early =>
    refine .session plain fun within here => ?_
    cases here
    exact fun ahead => early running rfl (same.mp ahead)
  | forking calls ahead => exact .forking calls (same.mpr ahead)
  | forked calls behind => exact .forked calls fun ahead => behind (same.mp ahead)

/-- Only a job comes to the fork. -/
theorem Place.atFork (place : Place maxBackups state (some running) point)
    (ahead : running.point.Forks) (behind : ¬ moved.point.Forks) :
    point = .forking ∧ (∃ job, state = .job job) ∧
      Place maxBackups state (some moved) .locking := by
  cases place with
  | session plain early => exact absurd ahead (early running rfl)
  | forking calls _ => exact ⟨rfl, ⟨_, rfl⟩, .forked calls behind⟩
  | forked _ behind' => exact absurd ahead behind'

theorem Place.returns {reply : Reply} (place : Place maxBackups state (some running) point)
    (ends : instr running.point = .ret reply) (behind : ¬ running.point.Forks) :
    Place maxBackups (LockedPrograms.received kvsMachine (ServerThread.next maxBackups)
      running.point state) none point := by
  have ends' : kvsMachine.instr running.point = .ret reply := ends
  cases place with
  | @session calls _ plain =>
    rw [LockedPrograms.received, ends']
    cases calls with
    | nil => exact .session plain fun _ same => by cases same
    | cons operation calls =>
      exact .session (fun member => plain (List.mem_cons_of_mem _ member)) fun _ same => by
        cases same
  | forking _ ahead => exact absurd ahead behind
  | forked calls _ =>
    rw [LockedPrograms.received_ret ends' (by rw [ServerThread.next, calls])]
    exact .turned (received_locking calls reply)

end Steps

/-! ### The simulation -/

/-- A step of `Backups` that a thread makes is one of a job. -/
def OfJob (states : τ → ServerThread) : BackupEvent τ → Prop
  | .thread thread _ => ∃ job, states thread = .job job
  | .childExits => True

/-- A child does not exit before its first step. -/
theorem copy_moves (shared : Shared) : (kvsMachine.childStep (.copy shared)).isSome := by
  have nonempty : (BackupChild.copy shared).buckets ≠ [] := by
    show allBuckets ≠ []
    decide
  refine Option.isSome_iff_ne_none.mpr fun stuck => nonempty ?_
  exact exited_of_stuck stuck

/-- The fork of a job is one in `Backups`. -/
theorem fork_backups {counter : BackupCounter}
    (counts : Counts (sightOf kvsMachine system) counter backups)
    (place : backups.threads thread = .forking)
    (children : after.children = if forks then
      system.children ++ [(running.ticket, .copy system.shared)] else system.children) :
    ∃ backups', backups.step maxBackups thread forks = some backups' ∧
      Counts (sightOf kvsMachine after) counter backups' ∧
      backups'.threads = Function.update backups.threads thread .locking := by
  obtain ⟨active, lock, exited, runs⟩ := counts
  rw [Backups.step, place]
  cases forks with
  | false =>
    have seen : sightOf kvsMachine after = sightOf kvsMachine system := by
      rw [sightOf, sightOf, children]
      rfl
    rw [seen]
    exact ⟨_, rfl, ⟨active, lock, exited, runs⟩, rfl⟩
  | true =>
    have seen := LockedPrograms.sight_made (copy_moves system.shared) children
    have runs' : backups.running + 1 + (sightOf kvsMachine system).ended =
        (sightOf kvsMachine system).made + 1 := by omega
    rw [seen]
    exact ⟨_, rfl, ⟨active, lock, exited, runs'⟩, rfl⟩

/-- **The step lemma.** -/
theorem turn_refines {step : LockedPrograms.Turn τ} (mirrors : Mirrors maxBackups pool backups)
    (stepped : LockedPrograms.turn kvsMachine (ServerThread.next maxBackups) step pool =
      some pool') :
    Mirrors maxBackups pool' backups ∨ ∃ event backups',
      Backups.fire maxBackups event backups = some backups' ∧ OfJob pool.states event ∧
        Mirrors maxBackups pool' backups' := by
  cases turn_turned stepped with
  | @child index entry child there moved =>
    have moving := LockedPrograms.sight_moving there moved
    have seen : sightOf kvsMachine { pool.system with
        children := pool.system.children.set index (entry.1, child) } = _ :=
      LockedPrograms.sight_child there moved rfl
    obtain ⟨active, lock, exited, runs⟩ := mirrors.counts
    cases gone : (kvsMachine.childStep child).isNone with
    | false =>
      left
      refine ⟨mirrors.places, ?_⟩
      rw [seen, gone]
      exact ⟨active, lock, exited, runs⟩
    | true =>
      right
      have left : 0 < backups.running := by omega
      refine ⟨.childExits, _, if_pos left, trivial, mirrors.places, ?_⟩
      rw [seen, gone, if_pos rfl]
      refine ⟨active, lock, ?_, ?_⟩
      · show backups.exited + 1 + pool.side.reaped = (sightOf kvsMachine pool.system).ended + 1
        omega
      · show backups.running - 1 + ((sightOf kvsMachine pool.system).ended + 1) =
          (sightOf kvsMachine pool.system).made
        omega
  | @own thread forks act counter own idle does acted =>
    have place := mirrors.places thread
    have threads : pool.system.threads = Function.update pool.system.threads thread none := by
      rw [← idle, Function.update_eq_self]
    have acts := own_acts does acted
    rw [idle] at place
    generalize here : pool.states thread = state at place acts
    cases acts with
    | reads served step =>
      left
      have first := place.of_other (by rw [served]; decide)
      exact mirrors.stays threads rfl (first ▸ .turned rfl)
    | @passes job dispatch pending first nothing =>
      left
      have other := head_ne_backup first (by rw [nothing]; decide)
      exact mirrors.stays threads rfl (place.of_other other ▸ .turned rfl)
    | @backs job pending _ point first stepped' =>
      right
      have head : job.pending.head? = some .backup := by
        rw [first]
        rfl
      rw [← place.of_backup head] at stepped'
      obtain ⟨backups', fired, counts, points⟩ := step_backups mirrors.counts forks stepped'
      exact ⟨.thread thread forks, backups', fired, ⟨job, here⟩,
        mirrors.moves threads points (.backing head) counts⟩
  | @call thread forks operation receive idle calls =>
    left
    have place := mirrors.places thread
    rw [idle] at place
    have stays : Mirrors maxBackups ⟨{ pool.system with
        threads := Function.update pool.system.threads thread
          (some ⟨operation, kvsMachine.start operation, 0⟩) }, pool.side, _⟩ backups :=
      mirrors.stays rfl rfl (place.call calls)
    rwa [Function.update_eq_self] at stays
  | @advance thread forks running after there advanced =>
    have place := mirrors.places thread
    rw [there] at place
    cases advance_callStep advanced with
    | goes busy threads same children =>
      left
      rw [LockedPrograms.received_busy busy]
      exact mirrors.stays threads children (place.goes same)
    | forks busy threads ahead behind children =>
      right
      obtain ⟨point, ofJob, forked⟩ := place.atFork ahead behind
      obtain ⟨backups', fired, counts, points⟩ := fork_backups mirrors.counts point children
      rw [LockedPrograms.received_busy busy]
      exact ⟨.thread thread forks, backups', fired, ofJob,
        mirrors.moves threads points forked counts⟩
    | returns ends threads behind children =>
      left
      exact mirrors.stays threads children (place.returns ends behind)

/-! ### The limit -/

section Server

variable {starts : τ → ServerThread} {initial : Shared} {turns : List (LockedPrograms.Turn τ)}

theorem begin_mirrors (fresh : ∀ thread, (starts thread).Fresh) :
    Mirrors maxBackups (LockedPrograms.begin initial .start starts) Backups.start where
  places thread := (fresh thread).place
  counts := ⟨rfl, iff_of_true rfl rfl, rfl, rfl⟩

/-- **The server refines the section.** -/
theorem jobs_refine_backups (fresh : ∀ thread, (starts thread).Fresh)
    (ran : LockedPrograms.run kvsMachine (ServerThread.next maxBackups) turns
      (LockedPrograms.begin initial .start starts) = some pool) :
    ∃ events backups, Interleaving.run (Backups.fire maxBackups) events Backups.start =
      some backups ∧ Mirrors maxBackups pool backups := by
  have step : ∀ (turn : LockedPrograms.Turn τ) (pool pool' : ServerPool τ) (backups : Backups τ),
      Mirrors maxBackups pool backups →
      LockedPrograms.turn kvsMachine (ServerThread.next maxBackups) turn pool = some pool' →
      Mirrors maxBackups pool' backups ∨ ∃ event backups',
        Backups.fire maxBackups event backups = some backups' ∧ True ∧
          Mirrors maxBackups pool' backups' := by
    intro turn pool pool' backups mirrors stepped
    rcases turn_refines mirrors stepped with stays | ⟨event, backups', fired, _, moves⟩
    · exact Or.inl stays
    · exact Or.inr ⟨event, backups', fired, trivial, moves⟩
  obtain ⟨events, backups, ran', _, mirrors⟩ := run_simulates step (begin_mirrors fresh) ran
  exact ⟨events, backups, ran', mirrors⟩

/-- The threads that run no jobs are sessions. -/
def Sessions (jobs : Finset τ) (states : τ → ServerThread) : Prop :=
  ∀ thread ∉ jobs, ∃ calls, states thread = .session calls

theorem sessions_keeps (jobs : Finset τ) :
    LockedPrograms.Keeps (ServerThread.next maxBackups)
      fun (_ : BackupCounter) states => Sessions jobs states where
  own := by
    intro states counter thread act sight counter' after sessions own acted other outside
    by_cases same : other = thread
    · subst same
      obtain ⟨calls, here⟩ := sessions other outside
      have acts := own_acts own acted
      rw [here] at acts
      cases acts
    · rw [Function.update_of_ne same]
      exact sessions other outside
  call := by
    intro states counter thread operation receive sessions calls reply other outside
    by_cases same : other = thread
    · subst same
      obtain ⟨served, here⟩ := sessions other outside
      rw [Function.update_self]
      have does := next_does maxBackups (states other)
      rw [calls, here] at does
      cases does
      exact ⟨_, rfl⟩
    · rw [Function.update_of_ne same]
      exact sessions other outside

variable [Fintype τ] {jobs : Finset τ}

/-- With at most `max_backups` jobs, the others are too few to hold a job's wait up. -/
theorem reaps_of_jobs (few : jobs.card ≤ maxBackups) (sessions : Sessions jobs pool.states)
    (mirrors : Mirrors maxBackups pool backups) {event : BackupEvent τ}
    (ofJob : OfJob pool.states event) : Reaps maxBackups event backups := by
  cases event with
  | childExits => trivial
  | thread thread forks =>
    intro waiting _ _
    have member : thread ∈ jobs := by
      by_contra outside
      obtain ⟨job, here⟩ := ofJob
      obtain ⟨calls, here'⟩ := sessions thread outside
      cases here.symm.trans here'
    refine (total_lt_among BackupPoint.pending_le_one (fun other outside => ?_) member ?_).trans_le
      few
    · obtain ⟨calls, here⟩ := sessions other outside
      have place := mirrors.places other
      rw [here] at place
      generalize backups.threads other = point at place
      cases place
      rfl
    · rw [waiting]
      rfl

/-- **The limit.** As long as at most `max_backups` threads run jobs, no more than `max_backups`
children are running. -/
theorem jobs_backup_limit (few : jobs.card ≤ maxBackups) (sessions : Sessions jobs starts)
    (fresh : ∀ thread, (starts thread).Fresh)
    (ran : LockedPrograms.run kvsMachine (ServerThread.next maxBackups) turns
      (LockedPrograms.begin initial .start starts) = some pool) :
    (pool.system.children.countP fun entry => entry.2.step.isSome) ≤ maxBackups := by
  have step : ∀ (turn : LockedPrograms.Turn τ) (pool pool' : ServerPool τ) (backups : Backups τ),
      Mirrors maxBackups pool backups ∧ Sessions jobs pool.states →
      LockedPrograms.turn kvsMachine (ServerThread.next maxBackups) turn pool = some pool' →
      (Mirrors maxBackups pool' backups ∧ Sessions jobs pool'.states) ∨ ∃ event backups',
        Backups.fire maxBackups event backups = some backups' ∧ Reaps maxBackups event backups ∧
          Mirrors maxBackups pool' backups' ∧ Sessions jobs pool'.states := by
    intro turn pool pool' backups ⟨mirrors, sessions⟩ stepped
    have sessions' := LockedPrograms.turn_keeps (sessions_keeps jobs) sessions stepped
    rcases turn_refines mirrors stepped with stays | ⟨event, backups', fired, ofJob, moves⟩
    · exact Or.inl ⟨stays, sessions'⟩
    · exact Or.inr ⟨event, backups', fired, reaps_of_jobs few sessions mirrors ofJob, moves,
        sessions'⟩
  obtain ⟨events, backups, ran', reaps, mirrors, _⟩ :=
    run_simulates step ⟨begin_mirrors fresh, sessions⟩ ran
  have inv := run_keeps_of_meets (fun _ _ _ inv meets fired => fire_counted inv meets fired)
    start_counted reaps ran'
  have counted := inv.counted
  have limited := inv.limited
  have runs := mirrors.counts.running
  have moving : (pool.system.children.countP fun entry => entry.2.step.isSome) +
      (sightOf kvsMachine pool.system).ended = (sightOf kvsMachine pool.system).made :=
    LockedPrograms.sight_running kvsMachine pool.system
  omega

end Server

theorem twoJobs_fresh : ∀ thread, (twoJobs thread).Fresh := fun _ => rfl

theorem jobs_refine_backups_sideBySide : ∃ pool events backups,
    LockedPrograms.run kvsMachine (ServerThread.next 1) sideBySide
      (LockedPrograms.begin kvsInit .start twoJobs) = some pool ∧
      Interleaving.run (Backups.fire 1) events Backups.start = some backups ∧
        Mirrors 1 pool backups := by
  obtain ⟨pool, ran⟩ := Option.isSome_iff_exists.mp
    (show (LockedPrograms.run kvsMachine (ServerThread.next 1) sideBySide
      (LockedPrograms.begin kvsInit .start twoJobs)).isSome by decide)
  obtain ⟨events, backups, ran', mirrors⟩ := jobs_refine_backups twoJobs_fresh ran
  exact ⟨pool, events, backups, ran, ran', mirrors⟩

/-- Two jobs may make two backups. -/
theorem jobs_backup_limit_sideBySide : ∃ pool,
    LockedPrograms.run kvsMachine (ServerThread.next 2) (sideBySide.take 30)
      (LockedPrograms.begin kvsInit .start twoJobs) = some pool ∧
      (pool.system.children.countP fun entry => entry.2.step.isSome) ≤ 2 := by
  obtain ⟨pool, ran⟩ := Option.isSome_iff_exists.mp
    (show (LockedPrograms.run kvsMachine (ServerThread.next 2) (sideBySide.take 30)
      (LockedPrograms.begin kvsInit .start twoJobs)).isSome by decide)
  have sessions : Sessions Finset.univ twoJobs := fun thread outside =>
    absurd (Finset.mem_univ thread) outside
  exact ⟨pool, ran, jobs_backup_limit (by decide) sessions twoJobs_fresh ran⟩

end Kvs.Server
