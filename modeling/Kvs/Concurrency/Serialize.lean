/-
**Job files side by side.**

The server runs job files and serves clients at the same time, and the table's lock is held for one
command only. `JobThread` is `run_job` as one thread among the others: it reads a command from its
own file, makes the store call step by step, and adds what the call has written to its own output.
Before the call of a BACKUP it goes through the section of `n_current_backups_lock`, where it may
have to wait for a child of another job.

`jobs_serialize` says that no interleaving can be told from a serial execution: there is one order
of all the commands, with those of each file in the order of the file, in which the ledger gives
every output file, every backup file and the table. `jobs_finish` says that every job comes to the
end of its file, and what is there then: no two jobs wait for each other, though one may hold
`n_current_backups_lock` in `wait(NULL)` and another the table's lock.

A thread of `get_file` runs one job after another. Here every job is a thread of its own that may
begin at any time. A command that overruns a buffer of the parser (`Trace.overflow`) is the last its
thread reads: what a smashed stack does is not part of the model. A call that has the table's lock
is taken to write its frames and its reply, and a child to open its file and write it, without
waiting for a reader or failing.
-/

import Kvs.Concurrency.BackupLimit
import Kvs.Concurrency.Linearize
import Kvs.Job.Trace
import Kvs.Lib.ProgramProgress

namespace Kvs.Server

open LockedCalls
open LockedPrograms (Next Lives Planned Pool Sight owned)

/-! ### The section of a BACKUP -/

/-- What the jobs share besides the table. -/
structure BackupCounter where
  /-- `n_current_backups_lock`. -/
  locked : Bool
  activeBackups : ℕ
  /-- The children that were waited for. -/
  reaped : ℕ

namespace BackupCounter

/-- As the server starts. -/
def start : BackupCounter := ⟨false, 0, 0⟩

/-- A step of the section; none when it has to wait for the lock or for a child. -/
def step (maxBackups : ℕ) (sight : Sight) (counter : BackupCounter) :
    BackupPoint → Option (BackupCounter × BackupPoint)
  | .locking =>
    if counter.locked then none else some ({ counter with locked := true }, .checking)
  | .checking =>
    if counter.activeBackups ≥ maxBackups then some (counter, .waiting)
    else some ({ counter with activeBackups := counter.activeBackups + 1 }, .unlocking)
  | .waiting =>
    if counter.reaped < sight.ended then
      some ({ counter with reaped := counter.reaped + 1 }, .unlocking)
    else if sight.ended < sight.made then none
    else some (counter, .unlocking)
  | .unlocking => some ({ counter with locked := false }, .forking)
  | .forking => none

end BackupCounter

namespace BackupPoint

/-- A thread there holds `n_current_backups_lock`. -/
def Inside : BackupPoint → Prop
  | .checking | .waiting | .unlocking => True
  | .locking | .forking => False

/-- The steps left up to `kvs_backup`. -/
def left : BackupPoint → ℕ
  | .locking => 4
  | .checking => 3
  | .waiting => 2
  | .unlocking => 1
  | .forking => 0

variable {maxBackups : ℕ} {sight : Sight} {counter counter' : BackupCounter}
  {point after : BackupPoint}

theorem left_step (stepped : counter.step maxBackups sight point = some (counter', after)) :
    after.left < point.left := by
  cases point <;> simp only [BackupCounter.step] at stepped <;> grind [left]

/-- Whose step leaves the lock held is inside. -/
theorem inside_step (stepped : counter.step maxBackups sight point = some (counter', after))
    (locked : counter'.locked = true) : after.Inside := by
  cases point <;> simp only [BackupCounter.step] at stepped <;> grind [Inside]

/-- Once all the children have come to their ends nobody waits for one inside the section. -/
theorem step_isSome (settled : sight.ended = sight.made) (inside : point.Inside) :
    (counter.step maxBackups sight point).isSome := by
  cases point <;> simp only [BackupCounter.step] <;> grind [Inside]

end BackupPoint

/-! ### Threads -/

/-- The store call of a dispatch. -/
def Dispatch.operation : Dispatch → Option Operation
  | .write pairs => some (.write pairs)
  | .read keys => some (.read keys)
  | .delete keys => some (.delete keys)
  | .show => some .show
  | .backup => some .backup
  | .wait _ | .help | .invalid => none

/-- A thread in `run_job`. -/
structure JobThread where
  /-- What the buffer of `parse_wait` holds. -/
  garbage : List Byte
  /-- The bytes of the file not read yet. -/
  file : List Byte
  /-- The command read and not served yet. -/
  pending : List Dispatch
  /-- Where it stands with a BACKUP. -/
  point : BackupPoint
  /-- The bytes written to `out_fd`. -/
  out : List Byte

namespace JobThread

/-- The thread turns to the next command, which may be a BACKUP. -/
def turnTo (pending : List Dispatch) (job : JobThread) : JobThread :=
  { job with pending, point := .locking }

/-- The loop of `run_job`: a command is read and then served, until `EOC`. A BACKUP comes to its
store call through the section. Nothing follows a buffer overrun. -/
def next (maxBackups : ℕ) (job : JobThread) : Next Operation Reply BackupCounter JobThread :=
  match job.pending with
  | [] =>
    match jobStep job.garbage job.file with
    | none => .stop
    | some (trace, rest) =>
      if trace.overflow then .own fun _ _ => none
      else .own fun _ counter => some (counter, { job.turnTo trace.dispatched with file := rest })
  | dispatch :: pending =>
    match dispatch.operation with
    | none => .own fun _ counter => some (counter, job.turnTo pending)
    | some operation =>
      if operation = .backup ∧ job.point ≠ .forking then
        .own fun sight counter =>
          (counter.step maxBackups sight job.point).map fun done =>
            (done.1, { job with point := done.2 })
      else
        .call operation fun reply => { job.turnTo pending with out := job.out ++ reply.text }

end JobThread

/-- A thread of the server: one in `run_job`, or one that makes the store calls the clients and the
signals ask for. -/
inductive ServerThread where
  | job (job : JobThread)
  | session (calls : List Operation)

namespace ServerThread

/-- What a thread does next. -/
def next (maxBackups : ℕ) : ServerThread → Next Operation Reply BackupCounter ServerThread
  | job thread =>
    match thread.next maxBackups with
    | .stop => .stop
    | .own act => .own fun sight counter => (act sight counter).map (Prod.map id .job)
    | .call operation receive => .call operation fun reply => .job (receive reply)
  | session [] => .stop
  | session (operation :: calls) => .call operation fun _ => .session calls

/-- The store calls a thread has still to make. -/
def ahead : ServerThread → List Operation
  | job thread =>
    (thread.pending ++ (jobTrace thread.garbage thread.file).dispatched).filterMap
      Dispatch.operation
  | session calls => calls

/-- What a thread has written to its output file. -/
def out : ServerThread → List Byte
  | job thread => thread.out
  | session _ => []

/-- A bound on the steps a thread takes outside its calls. -/
def effort : ServerThread → ℕ
  | job thread => 5 * (2 * thread.file.length + thread.pending.length) + thread.point.left
  | session calls => calls.length

/-- The thread holds `n_current_backups_lock`. -/
def InSection : ServerThread → Prop
  | job thread => thread.point.Inside ∧ thread.pending.head? = some .backup
  | session _ => False

end ServerThread

/-! ### What a thread does -/

theorem dispatched_of_none {garbage file : List Byte} (step : jobStep garbage file = none) :
    (jobTrace garbage file).dispatched = [] := by
  have looped : dispatchLoop garbage 1 file = some .empty := by rw [dispatchLoop, step]
  rw [dispatchLoop_eq 1 looped]
  rfl

theorem dispatched_of_some {garbage file rest : List Byte} {trace : Trace}
    (step : jobStep garbage file = some (trace, rest)) :
    (jobTrace garbage file).dispatched =
      trace.dispatched ++ (jobTrace garbage rest).dispatched := by
  rw [jobTrace_step step]
  rfl

/-- A command takes up a byte at least. -/
theorem pending_le {garbage file rest : List Byte} {trace : Trace}
    (step : jobStep garbage file = some (trace, rest)) :
    2 * rest.length + trace.dispatched.length < 2 * file.length := by
  have shorter := jobStep_shorter step
  obtain ⟨dispatched, _, same⟩ := Option.map_eq_some_iff.mp step
  cases same
  have one : dispatched.toList.length ≤ 1 := by cases dispatched <;> simp
  dsimp only at shorter ⊢
  omega

theorem Dispatch.eq_backup {dispatch : Dispatch}
    (operation : dispatch.operation = some .backup) : dispatch = .backup := by
  cases dispatch <;> simp [Dispatch.operation] at operation ⊢

/-- A command with another store call, or with none, is no BACKUP. -/
theorem head_ne_backup {pending rest : List Dispatch} {dispatch : Dispatch}
    (first : pending = dispatch :: rest) (other : dispatch.operation ≠ some .backup) :
    pending.head? ≠ some .backup := by
  rw [first]
  intro same
  cases Option.some.inj same
  exact other rfl

section Thread

variable (maxBackups : ℕ)

/-- What a thread does next, by cases. -/
inductive Does : ServerThread → Next Operation Reply BackupCounter ServerThread → Prop where
  | eoc {job : JobThread} (served : job.pending = [])
      (step : jobStep job.garbage job.file = none) : Does (.job job) .stop
  | reads {job : JobThread} {trace : Trace} {rest : List Byte} (served : job.pending = [])
      (step : jobStep job.garbage job.file = some (trace, rest)) :
      Does (.job job) (.own fun _ counter =>
        some (counter, .job { job.turnTo trace.dispatched with file := rest }))
  | smashes {job : JobThread} {trace : Trace} {rest : List Byte} (served : job.pending = [])
      (step : jobStep job.garbage job.file = some (trace, rest))
      (overflow : trace.overflow = true) : Does (.job job) (.own fun _ _ => none)
  | passes {job : JobThread} {dispatch : Dispatch} {pending : List Dispatch}
      (first : job.pending = dispatch :: pending) (nothing : dispatch.operation = none) :
      Does (.job job) (.own fun _ counter => some (counter, .job (job.turnTo pending)))
  | backs {job : JobThread} {pending : List Dispatch} (first : job.pending = .backup :: pending)
      (early : job.point ≠ .forking) :
      Does (.job job) (.own fun sight counter =>
        ((counter.step maxBackups sight job.point).map fun done =>
          (done.1, { job with point := done.2 })).map (Prod.map id .job))
  | calls {job : JobThread} {dispatch : Dispatch} {pending : List Dispatch} {operation : Operation}
      (first : job.pending = dispatch :: pending)
      (something : dispatch.operation = some operation)
      (late : operation = .backup → job.point = .forking) :
      Does (.job job) (.call operation fun reply =>
        .job { job.turnTo pending with out := job.out ++ reply.text })
  | closed : Does (.session []) .stop
  | serves {operation : Operation} {calls : List Operation} :
      Does (.session (operation :: calls)) (.call operation fun _ => .session calls)

/-- **The inversion lemma** of a thread. -/
theorem next_does (thread : ServerThread) : Does maxBackups thread (thread.next maxBackups) := by
  cases thread with
  | session calls =>
    cases calls with
    | nil => exact .closed
    | cons operation calls => exact .serves
  | job job =>
    obtain ⟨garbage, file, pending, point, out⟩ := job
    rw [ServerThread.next, JobThread.next]
    cases pending with
    | nil =>
      cases step : jobStep garbage file with
      | none => exact .eoc rfl step
      | some stepped =>
        obtain ⟨trace, rest⟩ := stepped
        cases overflow : trace.overflow with
        | true =>
          simp only [overflow, if_true]
          exact .smashes rfl step overflow
        | false =>
          simp only [overflow, Bool.false_eq_true, if_false]
          exact .reads rfl step
    | cons dispatch pending =>
      cases operation : dispatch.operation with
      | none =>
        simp only [operation]
        exact .passes rfl operation
      | some call =>
        by_cases early : call = .backup ∧ point ≠ .forking
        · obtain ⟨rfl, point'⟩ := early
          cases dispatch.eq_backup operation
          simp only [operation, ne_eq, point', not_false_eq_true, and_self, if_true]
          exact .backs rfl point'
        · simp only [operation, if_neg early]
          exact .calls rfl operation fun same => by_contra fun point' => early ⟨same, point'⟩

/-- What a step of a thread's own comes to. -/
inductive ThreadActs (sight : Sight) (counter : BackupCounter) :
    ServerThread → BackupCounter → ServerThread → Prop where
  | reads {job : JobThread} {trace : Trace} {rest : List Byte} (served : job.pending = [])
      (step : jobStep job.garbage job.file = some (trace, rest)) :
      ThreadActs sight counter (.job job) counter
        (.job { job.turnTo trace.dispatched with file := rest })
  | passes {job : JobThread} {dispatch : Dispatch} {pending : List Dispatch}
      (first : job.pending = dispatch :: pending) (nothing : dispatch.operation = none) :
      ThreadActs sight counter (.job job) counter (.job (job.turnTo pending))
  | backs {job : JobThread} {pending : List Dispatch} {counter' : BackupCounter}
      {point : BackupPoint} (first : job.pending = .backup :: pending)
      (stepped : counter.step maxBackups sight job.point = some (counter', point)) :
      ThreadActs sight counter (.job job) counter' (.job { job with point })

variable {maxBackups}

theorem own_acts {thread after : ServerThread} {sight : Sight} {counter counter' : BackupCounter}
    {act : Sight → BackupCounter → Option (BackupCounter × ServerThread)}
    (own : thread.next maxBackups = .own act) (acted : act sight counter = some (counter', after)) :
    ThreadActs maxBackups sight counter thread counter' after := by
  have does := next_does maxBackups thread
  rw [own] at does
  cases does with
  | reads served step =>
    cases acted
    exact .reads served step
  | smashes => cases acted
  | passes first nothing =>
    cases acted
    exact .passes first nothing
  | backs first _ =>
    obtain ⟨moved, mapped, same⟩ := Option.map_eq_some_iff.mp acted
    obtain ⟨done, stepped, rfl⟩ := Option.map_eq_some_iff.mp mapped
    cases same
    exact .backs first stepped

theorem serverThread_planned : Planned (ServerThread.next maxBackups) ServerThread.ahead where
  stop := by
    intro thread stops
    have does := next_does maxBackups thread
    rw [stops] at does
    cases does with
    | eoc served step => rw [ServerThread.ahead, served, dispatched_of_none step]; rfl
    | closed => rfl
  own := by
    intro thread act sight counter counter' after own acted
    cases own_acts own acted with
    | reads served step =>
      rw [ServerThread.ahead, ServerThread.ahead, served, dispatched_of_some step]
      rfl
    | passes first nothing =>
      rw [ServerThread.ahead, ServerThread.ahead, first, List.cons_append,
        List.filterMap_cons_none nothing]
      rfl
    | backs => rfl
  call := by
    intro thread operation receive calls
    have does := next_does maxBackups thread
    rw [calls] at does
    cases does with
    | @calls job dispatch pending _ first something =>
      refine ⟨(pending ++ (jobTrace job.garbage job.file).dispatched).filterMap Dispatch.operation,
        ?_, fun _ => rfl⟩
      rw [ServerThread.ahead, first, List.cons_append, List.filterMap_cons_some something]
    | serves => exact ⟨_, rfl, fun _ => rfl⟩

/-- Every call ahead of the thread names keys with buckets. -/
def ServerThread.Keyed (thread : ServerThread) : Prop :=
  ∀ operation ∈ thread.ahead, ∀ key ∈ operation.keys, startsAlnum key

/-- No command ahead of the thread overruns a buffer of the parser. -/
def ServerThread.Fits : ServerThread → Prop
  | job thread => (jobTrace thread.garbage thread.file).overflow = false
  | session _ => True

/-- A step of a thread's own leaves no more to read. -/
theorem fits_acts {thread after : ServerThread} {sight : Sight} {counter counter' : BackupCounter}
    (acts : ThreadActs maxBackups sight counter thread counter' after) (fits : thread.Fits) :
    after.Fits := by
  cases acts with
  | reads _ step =>
    rw [ServerThread.Fits, jobTrace_step step] at fits
    exact (Bool.or_eq_false_iff.mp fits).2
  | passes => exact fits
  | backs => exact fits

/-- Every thread comes to its end, and calls what it has ahead. -/
theorem serverThread_ends :
    LockedPrograms.Ends kvsMachine (ServerThread.next maxBackups) Point.Keyed ServerThread.Keyed
      ServerThread.effort where
  own := by
    intro thread act sight counter counter' after own acted keyed
    refine ⟨?_, ?_⟩
    · rwa [ServerThread.Keyed, serverThread_planned.own own acted]
    · cases own_acts own acted with
      | reads served step =>
        have less := pending_le step
        simp only [ServerThread.effort, JobThread.turnTo, served, List.length_nil, BackupPoint.left]
        omega
      | passes first nothing =>
        simp only [ServerThread.effort, JobThread.turnTo, first, List.length_cons, BackupPoint.left]
        omega
      | backs _ stepped => exact Nat.add_lt_add_left (BackupPoint.left_step stepped) _
  call := by
    intro thread operation receive calls keyed
    obtain ⟨later, now, rest⟩ := serverThread_planned.call calls
    rw [ServerThread.Keyed, now] at keyed
    obtain ⟨here, there⟩ := List.forall_mem_cons.mp keyed
    refine ⟨here, fun reply => ⟨?_, ?_⟩⟩
    · rwa [ServerThread.Keyed, rest]
    · have does := next_does maxBackups thread
      rw [calls] at does
      cases does with
      | calls first something =>
        simp only [ServerThread.effort, JobThread.turnTo, first, List.length_cons, BackupPoint.left]
        omega
      | serves => exact Nat.lt_succ_self _

/-- A job has written the answers it has got. -/
theorem lives_out {start thread : ServerThread}
    {served : List (LockedCalls.Outcome Operation Reply)}
    (lived : Lives (ServerThread.next maxBackups) start served thread) :
    ∀ job, thread = .job job →
      job.out = start.out ++ served.flatMap fun outcome => outcome.result.text := by
  induction lived with
  | start =>
    rintro job rfl
    exact (List.append_nil _).symm
  | own _ own acted ih =>
    rintro job rfl
    cases own_acts own acted with
    | @reads before => exact ih before rfl
    | @passes before => exact ih before rfl
    | @backs before => exact ih before rfl
  | @call served thread operation receive reply _ calls ih =>
    intro job same
    have does := next_does maxBackups thread
    rw [calls] at does
    cases does with
    | calls =>
      cases same
      rw [List.flatMap_append, ← List.append_assoc, ← ih _ rfl]
      exact congrArg _ (List.append_nil _).symm
    | serves => cases same

theorem lives_job {start : JobThread} {thread : ServerThread}
    {served : List (LockedCalls.Outcome Operation Reply)}
    (lived : Lives (ServerThread.next maxBackups) (.job start) served thread) :
    ∃ job, thread = .job job := by
  induction lived with
  | start => exact ⟨start, rfl⟩
  | own _ own acted ih =>
    cases own_acts own acted <;> exact ⟨_, rfl⟩
  | @call served thread operation receive reply _ calls ih =>
    obtain ⟨job, rfl⟩ := ih
    have does := next_does maxBackups (.job job)
    rw [calls] at does
    cases does
    exact ⟨_, rfl⟩

/-! ### Who holds `n_current_backups_lock` -/

/-- When the lock is held, some thread is inside the section. -/
def SectionHeld {τ : Type} (counter : BackupCounter) (threads : τ → ServerThread) : Prop :=
  counter.locked = true → ∃ thread, (threads thread).InSection

variable {τ : Type} [DecidableEq τ]

/-- A thread that is not inside moves. -/
theorem SectionHeld.outside {counter : BackupCounter} {threads : τ → ServerThread} {thread : τ}
    (held : SectionHeld counter threads) (outside : ¬ (threads thread).InSection)
    (after : ServerThread) : SectionHeld counter (Function.update threads thread after) := by
  intro locked
  obtain ⟨other, inside⟩ := held locked
  have different : other ≠ thread := fun same => outside (same ▸ inside)
  exact ⟨other, by rwa [Function.update_of_ne different]⟩

theorem fits_keeps :
    LockedPrograms.Keeps (ServerThread.next maxBackups)
      fun (_ : BackupCounter) (threads : τ → ServerThread) => ∀ thread, (threads thread).Fits where
  own := by
    intro threads counter thread act sight counter' after fits own acted other
    by_cases same : other = thread
    · subst same
      rw [Function.update_self]
      exact fits_acts (own_acts own acted) (fits other)
    · rw [Function.update_of_ne same]
      exact fits other
  call := by
    intro threads counter thread operation receive fits calls reply other
    by_cases same : other = thread
    · subst same
      rw [Function.update_self]
      have fit := fits other
      have does := next_does maxBackups (threads other)
      rw [calls] at does
      generalize threads other = before at does fit
      cases does with
      | calls => exact fit
      | serves => trivial
    · rw [Function.update_of_ne same]
      exact fits other

theorem sectionHeld_keeps :
    LockedPrograms.Keeps (ServerThread.next maxBackups) (SectionHeld (τ := τ)) where
  own := by
    intro threads counter thread act sight counter' after held own acted
    have acts := own_acts own acted
    generalize here : threads thread = before at acts
    cases acts with
    | reads served =>
      refine held.outside ?_ _
      rw [here, ServerThread.InSection, served]
      rintro ⟨_, backup⟩
      cases backup
    | @passes job dispatch pending first nothing =>
      refine held.outside ?_ _
      rw [here]
      exact fun inside => head_ne_backup first (by rw [nothing]; decide) inside.2
    | backs first stepped =>
      -- the thread that moves is the one inside, unless it has just given the lock back
      intro locked
      refine ⟨thread, ?_⟩
      rw [Function.update_self, ServerThread.InSection]
      exact ⟨BackupPoint.inside_step stepped locked, congrArg List.head? first⟩
  call := by
    intro threads counter thread operation receive held calls reply
    refine held.outside ?_ _
    have does := next_does maxBackups (threads thread)
    rw [calls] at does
    generalize threads thread = before at does
    cases does with
    | @calls job dispatch pending _ first something late =>
      rw [ServerThread.InSection, first]
      rintro ⟨inside, backup⟩
      cases Option.some.inj backup
      cases something
      rw [late rfl] at inside
      exact inside
    | serves => exact id

end Thread

/-! ### One order for all -/

/-- What an operation writes to its caller's file. -/
def Operation.text (operation : Operation) (ledger : Ledger) : List Byte :=
  (operation.answer true ledger).text

theorem answer_text (granted : Bool) (operation : Operation) (ledger : Ledger) :
    (operation.answer granted ledger).text = operation.text ledger := by
  cases operation <;> rfl

section Transcript

variable {τ : Type} [DecidableEq τ]

/-- What a thread's operations write, each on the ledger that all those before it have left. -/
def transcript (thread : τ) : List (τ × Operation) → Ledger → List Byte
  | [], _ => []
  | (owner, operation) :: serial, ledger =>
    (if owner = thread then operation.text ledger else []) ++
      transcript thread serial (operation.change ledger)

theorem transcript_append (thread : τ) (earlier later : List (τ × Operation)) (ledger : Ledger) :
    transcript thread (earlier ++ later) ledger =
      transcript thread earlier ledger ++
        transcript thread later (ledger.after (earlier.map Prod.snd)) := by
  induction earlier generalizing ledger with
  | nil => rfl
  | cons entry earlier ih =>
    rw [List.cons_append, transcript, transcript, ih, List.append_assoc]
    rfl

/-- A thread that owns nothing writes nothing. -/
theorem transcript_none {thread : τ} {serial : List (τ × Operation)}
    (nothing : owned thread serial = []) (ledger : Ledger) :
    transcript thread serial ledger = [] := by
  induction serial generalizing ledger with
  | nil => rfl
  | cons entry serial ih =>
    by_cases own : entry.1 = thread
    · simp [owned, own] at nothing
    · have later : owned thread serial = [] := by simpa [owned, own] using nothing
      rw [transcript, if_neg own, ih later]
      rfl

/-- What a thread got from an execution in which every call has answered from its ledger. -/
theorem transcript_owned (thread : τ) {execution : List (τ × LockedCalls.Outcome Operation Reply)}
    {ledger : Ledger}
    (answered : ∀ (ticket : ℕ) outcome, (execution.map Prod.snd)[ticket]? = some outcome →
      ∃ granted, outcome.result = outcome.call.answer granted
        (ledger.after (((execution.map Prod.snd).take ticket).map LockedCalls.Outcome.call))) :
    ((owned thread execution).flatMap fun outcome => outcome.result.text) =
      transcript thread (execution.map (Prod.map id LockedCalls.Outcome.call)) ledger := by
  induction execution generalizing ledger with
  | nil => rfl
  | cons entry execution ih =>
    obtain ⟨owner, outcome⟩ := entry
    obtain ⟨granted, answer⟩ := answered 0 outcome rfl
    have later := @ih (outcome.call.change ledger) fun ticket other there =>
      answered (ticket + 1) other there
    rw [List.map_cons, Prod.map_apply, transcript, ← later]
    have text : outcome.result.text = outcome.call.text ledger := by
      rw [answer]
      exact answer_text granted _ _
    by_cases own : owner = thread <;> simp [owned, own, text]

end Transcript

section Serialized

variable {τ : Type} [DecidableEq τ]

/-- The threads of the server with the calls they are within. -/
abbrev ServerPool (τ : Type) :=
  Pool Operation Shared Point Reply BackupChild τ BackupCounter ServerThread

/-- The operations of a pool in one order, the order in which they took the lock. -/
structure Serialized (maxBackups : ℕ) (ledger : Ledger) (starts : τ → ServerThread)
    (pool : ServerPool τ) (serial : List (τ × Operation)) : Prop where
  turns : pool.system.acquired = serial.map Prod.snd
  /-- A thread's operations come in the order of its file. -/
  order : ∀ thread, owned thread serial <+: (starts thread).ahead
  /-- None is left out once the thread is at the end of the file. -/
  whole : ∀ thread, pool.system.threads thread = none →
    (pool.states thread).next maxBackups = .stop → owned thread serial = (starts thread).ahead
  /-- The output file between two commands. -/
  out : ∀ thread job, pool.system.threads thread = none → pool.states thread = .job job →
    job.out = (starts thread).out ++ transcript thread serial ledger
  table : pool.system.holder = none →
    pool.system.shared.table.Holds (ledger.after (serial.map Prod.snd))
  backups : ∀ entry ∈ pool.system.children, entry.2.Exited → ∃ thread,
    serial[entry.1]? = some (thread, .backup) ∧
      entry.2.out = (ledger.after ((serial.take entry.1).map Prod.snd)).listing

variable {maxBackups : ℕ} {initial state : Shared} {counter : BackupCounter} {ledger : Ledger}
  {starts : τ → ServerThread} {pool : ServerPool τ}
  {execution : List (τ × LockedCalls.Outcome Operation Reply)}

theorem ordered_serialized (holds : initial.table.Holds ledger)
    (keyed : ∀ thread, (starts thread).Keyed)
    (ordered : LockedPrograms.Ordered kvsMachine (ServerThread.next maxBackups) initial starts pool
      execution state) : ∃ serial, Serialized maxBackups ledger starts pool serial := by
  obtain ⟨serial, turns, ⟨rest, same⟩, owners⟩ := ordered.planned serverThread_planned
  have alnum : ∀ operation ∈ pool.system.acquired, ∀ key ∈ operation.keys, startsAlnum key := by
    intro operation member
    rw [turns] at member
    obtain ⟨⟨thread, _⟩, there, rfl⟩ := List.mem_map.mp member
    exact keyed thread _ ((owners thread).1.subset (LockedPrograms.mem_owned there))
  have seen := linearized holds alnum ordered.calls
  have between : ∀ thread, pool.system.threads thread = none →
      Lives (ServerThread.next maxBackups) (starts thread) (owned thread execution)
        (pool.states thread) := by
    intro thread idle
    have stands := ordered.threads thread
    rw [idle] at stands
    cases stands with
    | between lived => exact lived
  refine ⟨serial, turns, fun thread => (owners thread).1, fun thread idle stops => ?_,
    fun thread job idle here => ?_, fun free => ?_, fun entry member exited => ?_⟩
  · rw [(owners thread).2 idle, (between thread idle).planned serverThread_planned,
      serverThread_planned.stop stops, List.append_nil]
  · obtain ⟨later, acquired⟩ := ordered.calls.acquired
    have answered := (serially_linear holds (fun outcome member => alnum outcome.call (by
      rw [acquired]
      exact List.mem_append_left _ (List.mem_map_of_mem member)))
      (serially_of_serial ordered.calls.serial)).2
    -- an idle thread owns nothing of what the holder of the lock is at
    have nothing : owned thread rest = [] := by
      have own := (owners thread).2 idle
      rwa [← same, LockedPrograms.owned_append, LockedPrograms.owned_map,
        List.append_right_eq_self] at own
    rw [lives_out (between thread idle) job here, transcript_owned thread answered, ← same,
      transcript_append, transcript_none nothing, List.append_nil]
  · rw [← turns]
    exact seen.table free
  · obtain ⟨turn, listed⟩ := seen.backups entry member exited
    rw [turns, List.getElem?_map] at turn
    obtain ⟨⟨thread, _⟩, there, rfl⟩ := Option.map_eq_some_iff.mp turn
    refine ⟨thread, there, ?_⟩
    rw [listed, turns, List.map_take]

/-- **Job files side by side are served as if one command came after another.** -/
theorem jobs_serialize {turns : List (LockedPrograms.Turn τ)}
    (holds : initial.table.Holds ledger) (keyed : ∀ thread, (starts thread).Keyed)
    (ran : LockedPrograms.run kvsMachine (ServerThread.next maxBackups) turns
      (LockedPrograms.begin initial counter starts) = some pool) :
    ∃ serial, Serialized maxBackups ledger starts pool serial := by
  obtain ⟨execution, state, ordered⟩ := LockedPrograms.run_ordered ran
  exact ordered_serialized holds keyed ordered

end Serialized

/-- `WRITE [(a,b)]` and BACKUP in one job and `READ [a]` in another. -/
def twoJobs (reader : Bool) : ServerThread :=
  .job ⟨[], if reader then ascii ['R', 'E', 'A', 'D', ' ', '[', 'a', ']', '\n']
    else ascii ['W', 'R', 'I', 'T', 'E', ' ', '[', '(', 'a', ',', 'b', ')', ']', '\n', 'B', 'A',
      'C', 'K', 'U', 'P', '\n'], [], .locking, []⟩

/-- The reader calls while the writer is about to take the lock, and the writer goes on to make a
backup. -/
def sideBySide : List (LockedPrograms.Turn Bool) :=
  [.go false true, .go true true, .go false true, .go true true, .go false true, .go false true,
    .go false true, .go true true, .go false true, .go true true, .go true true, .go true true,
    .go true true, .go true true] ++
  List.replicate 9 (.go false true) ++ List.replicate 27 (.child 0)

theorem twoJobs_keyed : ∀ thread, (twoJobs thread).Keyed := by
  intro thread
  unfold ServerThread.Keyed
  revert thread
  decide

theorem twoJobs_fits (thread : Bool) : (twoJobs thread).Fits := by
  cases thread <;> rfl

theorem jobs_serialize_sideBySide : ∃ pool serial,
    LockedPrograms.run kvsMachine (ServerThread.next 1) sideBySide
      (LockedPrograms.begin kvsInit .start twoJobs) = some pool ∧
        Serialized 1 ∅ twoJobs pool serial := by
  obtain ⟨pool, ran⟩ := Option.isSome_iff_exists.mp
    (show (LockedPrograms.run kvsMachine (ServerThread.next 1) sideBySide
      (LockedPrograms.begin kvsInit .start twoJobs)).isSome by decide)
  obtain ⟨serial, served⟩ := jobs_serialize createHashTable_holds twoJobs_keyed ran
  exact ⟨pool, serial, ran, served⟩

/-! ### The end -/

section Finished

variable {τ : Type} [DecidableEq τ] {maxBackups : ℕ} {initial state : Shared} {ledger : Ledger}
  {starts : τ → ServerThread} {pool : ServerPool τ}

/-- All the commands of all the threads have been served in one order. -/
structure Finished (ledger : Ledger) (starts : τ → ServerThread) (pool : ServerPool τ)
    (serial : List (τ × Operation)) : Prop where
  whole : ∀ thread, owned thread serial = (starts thread).ahead
  out : ∀ thread start, starts thread = .job start → ∃ job, pool.states thread = .job job ∧
    job.out = start.out ++ transcript thread serial ledger
  table : pool.system.shared.table.Holds (ledger.after (serial.map Prod.snd))
  backups : ∀ entry ∈ pool.system.children, entry.2.Exited ∧ ∃ thread,
    serial[entry.1]? = some (thread, .backup) ∧
      entry.2.out = (ledger.after ((serial.take entry.1).map Prod.snd)).listing
  unlocked : pool.side.locked = false

/-- With all the children at their ends a thread can only wait for `n_current_backups_lock`, outside
its section. -/
theorem waits_locked {thread : ServerThread} {sight : Sight} {counter : BackupCounter}
    {act : Sight → BackupCounter → Option (BackupCounter × ServerThread)}
    (fits : thread.Fits) (settled : sight.ended = sight.made)
    (own : thread.next maxBackups = .own act) (waits : act sight counter = none) :
    counter.locked = true ∧ ¬ thread.InSection := by
  have does := next_does maxBackups thread
  rw [own] at does
  cases does with
  | reads => cases waits
  | smashes _ step overflow =>
    rw [ServerThread.Fits, jobTrace_step step] at fits
    rw [(Bool.or_eq_false_iff.mp fits).1] at overflow
    cases overflow
  | passes => cases waits
  | @backs job pending first early =>
    rw [Option.map_eq_none_iff, Option.map_eq_none_iff] at waits
    have outside : ¬ job.point.Inside := fun inside => by
      have goes : (counter.step maxBackups sight job.point).isSome :=
        BackupPoint.step_isSome settled inside
      rw [waits] at goes
      cases goes
    refine ⟨?_, fun inside => outside inside.1⟩
    revert waits outside early
    cases job.point <;> simp [BackupCounter.step, BackupPoint.Inside]

omit [DecidableEq τ] in
/-- **Nobody is left waiting** in a pool that can go no further. -/
theorem stops_of_halts
    (held : SectionHeld pool.side pool.states) (fits : ∀ thread, (pool.states thread).Fits)
    (halts : ∀ thread, LockedPrograms.Halts kvsMachine (ServerThread.next maxBackups) pool thread)
    (settled : ∀ entry ∈ pool.system.children, kvsMachine.childStep entry.2 = none) :
    pool.side.locked = false ∧ ∀ thread, (pool.states thread).next maxBackups = .stop := by
  have seen := LockedPrograms.sight_settled settled
  have free : pool.side.locked = false := by
    by_contra locked
    obtain ⟨thread, inside⟩ := held (Bool.of_not_eq_false locked)
    rcases (halts thread).2 with stops | ⟨act, own, waits⟩
    · have does := next_does maxBackups (pool.states thread)
      rw [stops] at does
      generalize pool.states thread = state at does inside
      cases does with
      | eoc served =>
        rw [ServerThread.InSection, served] at inside
        cases inside.2
      | closed => exact inside
    · exact (waits_locked (fits thread) seen own waits).2 inside
  refine ⟨free, fun thread => ?_⟩
  rcases (halts thread).2 with stops | ⟨act, own, waits⟩
  · exact stops
  · have locked := (waits_locked (fits thread) seen own waits).1
    rw [free] at locked
    cases locked

/-- **Every job comes to the end of its file**, when no command of a file overruns a buffer. From
any state of the threads no schedule goes on for ever, and one that can go no further has served
every command of every file. -/
theorem jobs_finish [Fintype τ] {turns : List (LockedPrograms.Turn τ)}
    (holds : initial.table.Holds ledger) (keyed : ∀ thread, (starts thread).Keyed)
    (fits : ∀ thread, (starts thread).Fits)
    (ran : LockedPrograms.run kvsMachine (ServerThread.next maxBackups) turns
      (LockedPrograms.begin initial .start starts) = some pool) :
    (¬ ∃ run : ℕ → ServerPool τ, run 0 = pool ∧ ∀ step,
      LockedPrograms.Turns kvsMachine (ServerThread.next maxBackups) (run (step + 1)) (run step)) ∧
    (LockedPrograms.Stuck kvsMachine (ServerThread.next maxBackups) pool →
      ∃ serial, Finished ledger starts pool serial) := by
  have fine := LockedPrograms.run_fine kvsMachine_bounded serverThread_ends
    (LockedPrograms.begin_fine kvsMachine (ServerThread.next maxBackups) initial _ keyed) ran
  refine ⟨?_, fun stuck => ?_⟩
  · rintro ⟨run, start, goes⟩
    have none := acc_iff_isEmpty_descending_chain.mp
      (LockedPrograms.pool_acc kvsMachine_bounded serverThread_ends fine)
    exact none.false ⟨run, start, goes⟩
  · obtain ⟨halts, exited⟩ := LockedPrograms.pool_settled kvsMachine_bounded fine stuck
    have idle : ∀ thread, pool.system.threads thread = none := fun thread => (halts thread).1
    have held := LockedPrograms.run_keeps sectionHeld_keeps (fun locked => by cases locked) ran
    have fitting := LockedPrograms.run_keeps fits_keeps fits ran
    obtain ⟨unlocked, stops⟩ := stops_of_halts held fitting halts exited
    obtain ⟨execution, state, ordered⟩ := fine.ordered
    obtain ⟨serial, served⟩ := ordered_serialized holds keyed ordered
    have free : pool.system.holder = none := by
      by_contra held
      obtain ⟨thread, holder⟩ := Option.ne_none_iff_exists'.mp held
      obtain ⟨running, _, there, _⟩ := ordered.calls.held thread holder
      cases there.symm.trans (idle thread)
    refine ⟨serial, fun thread => served.whole thread (idle thread) (stops thread),
      fun thread start begins => ?_, served.table free, fun entry member => ?_, unlocked⟩
    · have stands := ordered.threads thread
      rw [idle thread, begins] at stands
      cases stands with
      | between lived =>
        obtain ⟨job, here⟩ := lives_job lived
        have out := served.out thread job (idle thread) here
        rw [begins] at out
        exact ⟨job, here, out⟩
    · have gone := exited_of_stuck (exited entry member)
      exact ⟨gone, served.backups entry member gone⟩

end Finished

/-- When both are done the reader has what the writer wrote, and so has the backup. -/
theorem jobs_finish_sideBySide : ∃ pool serial,
    LockedPrograms.run kvsMachine (ServerThread.next 1) sideBySide
      (LockedPrograms.begin kvsInit .start twoJobs) = some pool ∧
        Finished ∅ twoJobs pool serial := by
  obtain ⟨pool, ran⟩ := Option.isSome_iff_exists.mp
    (show (LockedPrograms.run kvsMachine (ServerThread.next 1) sideBySide
      (LockedPrograms.begin kvsInit .start twoJobs)).isSome by decide)
  have still : ((LockedPrograms.run kvsMachine (ServerThread.next 1) sideBySide
      (LockedPrograms.begin kvsInit .start twoJobs)).map fun pool =>
        (decide (∀ entry ∈ pool.system.children, entry.2.step.isNone),
          decide (∀ thread forks, (LockedPrograms.turn kvsMachine (ServerThread.next 1)
            (.go thread forks) pool).isNone))) = some (true, true) := by decide
  rw [ran, Option.map_some, Option.some.injEq, Prod.mk.injEq, decide_eq_true_iff,
    decide_eq_true_iff] at still
  obtain ⟨exited, still⟩ := still
  have stuck : LockedPrograms.Stuck kvsMachine (ServerThread.next 1) pool := by
    intro step
    cases step with
    | go thread forks => exact Option.isNone_iff_eq_none.mp (still thread forks)
    | child index =>
      rw [LockedPrograms.turn, fire, Option.map_eq_none_iff]
      refine Option.bind_eq_none_iff.mpr fun entry there => ?_
      exact Option.map_eq_none_iff.mpr
        (Option.isNone_iff_eq_none.mp (exited entry (List.mem_of_getElem? there)))
  obtain ⟨serial, finished⟩ :=
    (jobs_finish createHashTable_holds twoJobs_keyed twoJobs_fits ran).2 stuck
  exact ⟨pool, serial, ran, finished⟩

end Kvs.Server
