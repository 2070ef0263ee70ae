/-
**Running a job file (`run_job` in `server/main.c`).**

One iteration of `run_job` reads a command and its arguments (`nextDispatch`) and makes one store
call. `Dispatch` is that call with its arguments, or the report of an invalid command. What is
dispatched depends on the bytes of the file alone: a store call returns no more than an error code
that selects a message. `dispatchLoop` is the loop as far as it decides what is dispatched, each
call taken to return; `runJob` is the loop with the calls made, and `runJob_eq` relates the two.

`overran` says that some command read past the end of the file before it was done (the `EOC` read
does not count), `overflow` that a parser stored a byte outside its buffer.
-/

import Kvs.Server.Operations
import Kvs.Server.Parser

namespace Kvs.Server

open Scanner (Scan Scanned)
open Scanner.Scan (read store)

/-- What an iteration of `run_job` does, once the command is parsed. -/
inductive Dispatch where
  | write (pairs : List (CStr × CStr))
  | read (keys : List CStr)
  | delete (keys : List CStr)
  | show
  | wait (delay : ℕ)
  | backup
  | help
  /-- "Invalid command. See HELP for usage". -/
  | invalid
deriving DecidableEq

/-- The `switch` of `run_job`: the arguments of a command are parsed. None at `EOC`, and nothing
dispatched for a comment or an empty line. -/
def parseArguments (garbage : List Byte) : Command → Parse (Option (Option Dispatch))
  | .write => do
    let pairs ← parseWrite maxWriteSize maxStringSize
    return some (some (if pairs = [] then .invalid else .write pairs))
  | .read => do
    let keys ← parseReadDelete maxWriteSize maxStringSize
    return some (some (if keys = [] then .invalid else .read keys))
  | .delete => do
    let keys ← parseReadDelete maxWriteSize maxStringSize
    return some (some (if keys = [] then .invalid else .delete keys))
  | .show => return some (some .show)
  | .wait => do
    let result ← parseWait garbage false
    return some (some (if result.code = -1 then .invalid else .wait (result.delay.getD 0)))
  | .backup => return some (some .backup)
  | .invalid => return some (some .invalid)
  | .help => return some (some .help)
  | .empty => return some none
  | .eoc => return none

/-- The next command with its arguments. -/
def nextDispatch (garbage : List Byte) : Parse (Option (Option Dispatch)) := do
  let command ← getNext
  parseArguments garbage command

/-- What a run of `run_job` dispatches, and its marks. -/
structure Trace where
  dispatched : List Dispatch
  overran : Bool
  overflow : Bool
deriving DecidableEq

namespace Trace

/-- Nothing dispatched. -/
def empty : Trace := ⟨[], false, false⟩

/-- One trace after another. -/
def append (first second : Trace) : Trace :=
  ⟨first.dispatched ++ second.dispatched, first.overran || second.overran,
    first.overflow || second.overflow⟩

end Trace

/-- One iteration: its trace and the bytes left, none at `EOC`. -/
def jobStep (garbage file : List Byte) : Option (Trace × List Byte) :=
  let step := nextDispatch garbage file
  step.val.map fun dispatched => (⟨dispatched.toList, step.hitEnd, step.overflow⟩, step.rest)

/-- The loop of `run_job`; none when it has not met `EOC` within the given iterations. -/
def dispatchLoop (garbage : List Byte) : ℕ → List Byte → Option Trace
  | 0, _ => none
  | iterations + 1, file =>
    match jobStep garbage file with
    | none => some .empty
    | some (trace, rest) => (dispatchLoop garbage iterations rest).map trace.append

/-! ### The store calls -/

/-- What a job meets outside itself, by the number of store calls it has made. -/
structure Surroundings where
  /-- The other threads' calls since this job's last one. -/
  others : ℕ → Shared → Shared
  /-- Whether `fork` succeeds. -/
  forks : ℕ → Bool

/-- What a job holds and has written. -/
structure JobState where
  shared : Shared
  calls : ℕ
  /-- The bytes written to `out_fd`. -/
  out : List Byte
  /-- `file_backups`. -/
  fileBackups : ℕ
  /-- The backup files its children write, by number. -/
  backups : List (ℕ × List Byte)

/-- The `switch` of `run_job`: the store call, made on the table the other threads left. -/
def storeCall (shared : Shared) (forks : Bool) (job : JobState) : Dispatch → Except Fault JobState
  | .write pairs => do
    let (_, shared) ← kvsWrite pairs shared
    return { job with shared }
  | .read keys => do
    let (_, text) ← kvsRead keys shared
    return { job with shared, out := job.out ++ text }
  | .delete keys => do
    let (_, text, shared) ← kvsDelete keys shared
    return { job with shared, out := job.out ++ text }
  | .show => return { job with shared, out := job.out ++ kvsShow shared.table }
  | .backup => do
    let fileBackups := job.fileBackups + 1
    let (_, content) := kvsBackup forks shared.table
    return { job with
      shared, fileBackups,
      backups := job.backups ++ (content.map fun text => (fileBackups, text)).toList }
  | .wait _ | .help | .invalid => return { job with shared }

/-- One dispatch of a job. -/
def runDispatch (around : Surroundings) (dispatch : Dispatch) (job : JobState) :
    Except Fault JobState := do
  let job ← storeCall (around.others job.calls job.shared) (around.forks job.calls) job dispatch
  return { job with calls := job.calls + 1 }

/-- Dispatches one after another. -/
def runDispatches (around : Surroundings) : List Dispatch → JobState → Except Fault JobState
  | [], job => .ok job
  | dispatch :: dispatches, job => do
    let job ← runDispatch around dispatch job
    runDispatches around dispatches job

/-- `run_job`, with the calls made; none when it has not returned within the given iterations. -/
def runJob (around : Surroundings) (garbage : List Byte) :
    ℕ → List Byte → JobState → Option (Except Fault JobState)
  | 0, _, _ => none
  | iterations + 1, file, job =>
    match jobStep garbage file with
    | none => some (.ok job)
    | some (trace, rest) =>
      match runDispatches around trace.dispatched job with
      | .error fault => some (.error fault)
      | .ok job => runJob around garbage iterations rest job

theorem runDispatches_append (around : Surroundings) (earlier later : List Dispatch)
    (job : JobState) :
    runDispatches around (earlier ++ later) job =
      (runDispatches around earlier job).bind (runDispatches around later) := by
  induction earlier generalizing job with
  | nil => rfl
  | cons dispatch earlier ih =>
    show (runDispatch around dispatch job).bind _ =
      ((runDispatch around dispatch job).bind _).bind _
    cases runDispatch around dispatch job with
    | error fault => rfl
    | ok job => exact ih job

/-- **`run_job` makes the calls it dispatches**, in order, up to the first that faults. -/
theorem runJob_eq {garbage : List Byte} {iterations : ℕ} {file : List Byte} {trace : Trace}
    (looped : dispatchLoop garbage iterations file = some trace) (around : Surroundings)
    (job : JobState) :
    runJob around garbage iterations file job =
      some (runDispatches around trace.dispatched job) := by
  induction iterations generalizing file trace job with
  | zero => cases looped
  | succ iterations ih =>
    rw [dispatchLoop] at looped
    rw [runJob]
    cases step : jobStep garbage file with
    | none =>
      rw [step] at looped
      cases looped
      rfl
    | some stepped =>
      obtain ⟨first, rest⟩ := stepped
      rw [step] at looped
      obtain ⟨later, loopedLater, appended⟩ := Option.map_eq_some_iff.mp looped
      subst appended
      show (match runDispatches around first.dispatched job with
        | .error fault => some (.error fault)
        | .ok job => runJob around garbage iterations rest job) =
          some (runDispatches around (first.dispatched ++ later.dispatched) job)
      rw [runDispatches_append]
      cases runDispatches around first.dispatched job with
      | error fault => rfl
      | ok job => exact ih loopedLater job

end Kvs.Server
