/-
**A job file as a program on the ledger.**

`Dispatch.serve` says what a command means to the author of a job file: what it does to the ledger,
and what it adds to the output file and to the backup files. An `Account` is what a job has come to.
The other threads are a `Company`: what they do to the ledger between two commands of the job.

`runJob_accounts` says that `run_job` on any file that overruns no buffer of the parser comes to the
account its commands have, byte for byte; the table with its chains and the order of the calls
cannot be told from it. Of a file of commands these are the ones it was written with
(`runJob_commands`).

The calls are taken to return: `wait` and the writes of frames and replies do not block for ever,
and a backup child that comes to be can open its file.
-/

import Kvs.Job.Commands
import Kvs.Safety.BucketIndex
import Kvs.Store.Ledger

namespace Kvs.Server

/-! ### Meanings -/

/-- What a job has come to. -/
structure Account where
  ledger : Ledger
  /-- The commands served. -/
  calls : ℕ
  /-- The bytes of the output file. -/
  out : List Byte
  /-- The backups asked for. -/
  fileBackups : ℕ
  /-- The backup files, by number. -/
  backups : List (ℕ × List Byte)

/-- What a job meets outside itself, by the number of commands it has served. -/
structure Company where
  /-- The other threads' doings since this job's last command. -/
  others : ℕ → Ledger → Ledger
  /-- Whether a backup's child comes to be. -/
  forks : ℕ → Bool

/-- The effect of a command on the ledger. -/
def Dispatch.change : Dispatch → Ledger → Ledger
  | .write pairs, ledger => ledger.writeAll pairs
  | .delete keys, ledger => ledger.eraseAll keys
  | _, ledger => ledger

/-- What a command adds to the output file. -/
def Dispatch.reply : Dispatch → Ledger → List Byte
  | .read keys, ledger => ledger.readReply keys
  | .delete keys, ledger => ledger.deleteReply keys
  | .show, ledger => ledger.listing
  | _, _ => []

/-- What a command adds to the backup files, when `number` backups were asked for before. -/
def Dispatch.backsUp (forks : Bool) (number : ℕ) : Dispatch → Ledger → List (ℕ × List Byte)
  | .backup, ledger => if forks then [(number + 1, ledger.listing)] else []
  | _, _ => []

/-- **What a command means.** -/
def Dispatch.serve (company : Company) (dispatch : Dispatch) (account : Account) : Account :=
  let ledger := company.others account.calls account.ledger
  { ledger := dispatch.change ledger
    calls := account.calls + 1
    out := account.out ++ dispatch.reply ledger
    fileBackups := account.fileBackups + if dispatch = .backup then 1 else 0
    backups := account.backups ++
      dispatch.backsUp (company.forks account.calls) account.fileBackups ledger }

/-- Commands one after another. -/
def serveAll (company : Company) (dispatches : List Dispatch) (account : Account) : Account :=
  dispatches.foldl (fun account dispatch => dispatch.serve company account) account

/-! ### The job's state and its account -/

/-- The job has come to the account. -/
structure JobState.Accounts (job : JobState) (account : Account) : Prop where
  holds : job.shared.table.Holds account.ledger
  calls : job.calls = account.calls
  out : job.out = account.out
  fileBackups : job.fileBackups = account.fileBackups
  backups : job.backups = account.backups

/-- The other threads do to the table what the company does to the ledger. -/
structure Surroundings.Keeps (around : Surroundings) (company : Company) : Prop where
  others : ∀ calls shared ledger, shared.table.Holds ledger →
    (around.others calls shared).table.Holds (company.others calls ledger)
  forks : around.forks = company.forks

variable {around : Surroundings} {company : Company}

/-- **One store call** of a job. -/
theorem storeCall_serves {shared : Shared} {ledger : Ledger} (holds : shared.table.Holds ledger)
    (forks : Bool) (job : JobState) {dispatch : Dispatch}
    (alnum : ∀ key ∈ dispatch.keys, startsAlnum key) :
    ∃ after, storeCall shared forks job dispatch = .ok after ∧
      after.shared.table.Holds (dispatch.change ledger) ∧ after.calls = job.calls ∧
      after.out = job.out ++ dispatch.reply ledger ∧
      after.fileBackups = job.fileBackups + (if dispatch = .backup then 1 else 0) ∧
      after.backups = job.backups ++ dispatch.backsUp forks job.fileBackups ledger := by
  have nothing : ∀ text : List Byte, text ++ [] = text := List.append_nil
  cases dispatch with
  | write pairs =>
    obtain ⟨after, wrote, held⟩ := kvsWrite_holds holds fun pair member =>
      alnum pair.1 (List.mem_map_of_mem member)
    refine ⟨{ job with shared := after }, ?_, held, rfl, (nothing _).symm, rfl,
      (List.append_nil _).symm⟩
    rw [storeCall, wrote]
    rfl
  | read keys =>
    have answered : kvsRead keys shared = _ := kvsRead_holds holds alnum
    refine ⟨{ job with shared, out := job.out ++ ledger.readReply keys }, ?_, holds, rfl, rfl, rfl,
      (List.append_nil _).symm⟩
    rw [storeCall, answered]
    rfl
  | delete keys =>
    have done : ∃ after, kvsDelete keys shared = _ ∧ _ := kvsDelete_holds holds alnum
    obtain ⟨after, deleted, held⟩ := done
    refine ⟨{ job with shared := after, out := job.out ++ ledger.deleteReply keys }, ?_, held, rfl,
      rfl, rfl, (List.append_nil _).symm⟩
    rw [storeCall, deleted]
    rfl
  | «show» =>
    refine ⟨{ job with shared, out := job.out ++ ledger.listing }, ?_, holds, rfl, rfl, rfl,
      (List.append_nil _).symm⟩
    rw [storeCall, kvsShow_holds holds]
    rfl
  | backup =>
    cases forks with
    | true =>
      refine ⟨_, rfl, holds, rfl, (nothing _).symm, rfl, ?_⟩
      rw [backupContent_holds holds]
      rfl
    | false => exact ⟨_, rfl, holds, rfl, (nothing _).symm, rfl, rfl⟩
  | wait delay => exact ⟨_, rfl, holds, rfl, (nothing _).symm, rfl, (List.append_nil _).symm⟩
  | help => exact ⟨_, rfl, holds, rfl, (nothing _).symm, rfl, (List.append_nil _).symm⟩
  | invalid => exact ⟨_, rfl, holds, rfl, (nothing _).symm, rfl, (List.append_nil _).symm⟩

/-- **The step lemma.** A dispatch comes to what its command means. -/
theorem runDispatch_serves (keeps : around.Keeps company) {job : JobState} {account : Account}
    (accounts : job.Accounts account) {dispatch : Dispatch}
    (alnum : ∀ key ∈ dispatch.keys, startsAlnum key) :
    ∃ after, runDispatch around dispatch job = .ok after ∧
      after.Accounts (dispatch.serve company account) := by
  have holds := keeps.others job.calls job.shared account.ledger accounts.holds
  obtain ⟨after, called, held, calls, out, fileBackups, backups⟩ :=
    storeCall_serves holds (around.forks job.calls) job alnum
  refine ⟨{ after with calls := after.calls + 1 }, ?_, ?_⟩
  · rw [runDispatch, called]
    rfl
  · rw [accounts.calls] at held out backups
    rw [accounts.fileBackups, keeps.forks] at backups
    exact ⟨held, congrArg (· + 1) (calls.trans accounts.calls), by rw [out, accounts.out]; rfl,
      by rw [fileBackups, accounts.fileBackups]; rfl, by rw [backups, accounts.backups]; rfl⟩

/-- **The run lemma.** -/
theorem runDispatches_serves (keeps : around.Keeps company) {dispatches : List Dispatch}
    (alnum : ∀ key ∈ dispatches.flatMap Dispatch.keys, startsAlnum key) {job : JobState}
    {account : Account} (accounts : job.Accounts account) :
    ∃ final, runDispatches around dispatches job = .ok final ∧
      final.Accounts (serveAll company dispatches account) := by
  induction dispatches generalizing job account with
  | nil => exact ⟨job, rfl, accounts⟩
  | cons dispatch dispatches ih =>
    rw [List.flatMap_cons] at alnum
    obtain ⟨middle, called, served⟩ := runDispatch_serves keeps accounts fun key member =>
      alnum key (List.mem_append_left _ member)
    obtain ⟨final, ran, later⟩ := ih (fun key member => alnum key (List.mem_append_right _ member))
      served
    refine ⟨final, ?_, later⟩
    rw [runDispatches, called]
    exact ran

/-! ### Whole files -/

/-- **`run_job` computes what its commands mean.** On a file that overruns no buffer of the parser
it returns, and has come to the account of the commands it dispatches, unless one of them names a
key without a bucket: then the access to that bucket ends it. -/
theorem runJob_accounts (keeps : around.Keeps company) (garbage file : List Byte)
    (fits : (jobTrace garbage file).overflow = false) {job : JobState} {account : Account}
    (accounts : job.Accounts account) :
    ((∀ key ∈ jobKeys garbage file, startsAlnum key) →
      ∃ final, runJobNoted around garbage (file.length + 1) file job =
          some ((jobTrace garbage file).dispatched, .ok final) ∧
        final.Accounts (serveAll company (jobTrace garbage file).dispatched account)) ∧
    ((∃ key ∈ jobKeys garbage file, ¬ startsAlnum key) →
      runJobNoted around garbage (file.length + 1) file job =
        some (served (jobTrace garbage file).dispatched, .error (.bucket (-1)))) := by
  rw [runJobNoted_eq (dispatchLoop_jobTrace garbage file) fits]
  constructor
  · intro alnum
    obtain ⟨final, ran, served⟩ := runDispatches_serves keeps alnum accounts
    rw [served_eq fun dispatch member key named =>
      alnum key (List.mem_flatMap.mpr ⟨dispatch, member, named⟩), ran]
    exact ⟨final, rfl, served⟩
  · rintro ⟨key, member, other⟩
    rw [(accesses_runDispatches around _ job).fault member other]

/-- **`run_job` on a file of commands** comes to the account these commands have. -/
theorem runJob_commands (keeps : around.Keeps company) (garbage : List Byte)
    (commands : List JobCommand)
    (alnum : ∀ key ∈ (commands.filterMap JobCommand.dispatch).flatMap Dispatch.keys,
      startsAlnum key) {job : JobState} {account : Account} (accounts : job.Accounts account) :
    ∃ final, runJobNoted around garbage (commands.length + 1) (jobText commands) job =
        some (commands.filterMap JobCommand.dispatch, .ok final) ∧
      final.Accounts (serveAll company (commands.filterMap JobCommand.dispatch) account) := by
  obtain ⟨final, ran, served⟩ := runDispatches_serves keeps alnum accounts
  rw [runJobNoted_eq (dispatchLoop_jobText garbage commands) rfl, served_eq fun dispatch member key
    named => alnum key (List.mem_flatMap.mpr ⟨dispatch, member, named⟩), ran]
  exact ⟨final, rfl, served⟩

/-- Another job writes `(c,e)` before each command of this one. -/
def otherPairs : List (CStr × CStr) := [(⟨ascii ['c'], by decide⟩, ⟨ascii ['e'], by decide⟩)]

def otherWriter : Surroundings where
  others _ shared := ((kvsWrite otherPairs shared).map Prod.snd).toOption.getD shared
  forks _ := true

def otherEntries : Company where
  others _ ledger := ledger.writeAll otherPairs
  forks _ := true

theorem otherWriter_keeps : otherWriter.Keeps otherEntries where
  others _ shared ledger holds := by
    have alnum : ∀ pair ∈ otherPairs, startsAlnum pair.1 := by decide
    obtain ⟨after, wrote, held⟩ := kvsWrite_holds holds alnum
    show (((kvsWrite otherPairs shared).map Prod.snd).toOption.getD shared).table.Holds _
    rw [wrote]
    exact held
  forks := rfl

/-- `WRITE [(a,b)]`, `SHOW` and `BACKUP`. -/
def writeShowBackup : List Byte :=
  ascii ['W', 'R', 'I', 'T', 'E', ' ', '[', '(', 'a', ',', 'b', ')', ']'] ++ newline ::
    ascii ['S', 'H', 'O', 'W'] ++ newline :: ascii ['B', 'A', 'C', 'K', 'U', 'P'] ++ [newline]

/-- The other job's pair is listed behind this one's, in the output file and in the backup. -/
theorem runJob_accounts_shown : ∃ final,
    runJobNoted otherWriter [] (writeShowBackup.length + 1) writeShowBackup
        ⟨kvsInit, 0, [], 0, []⟩ = some ((jobTrace [] writeShowBackup).dispatched, .ok final) ∧
      final.out = ascii ['(', 'a', ',', ' ', 'b', ')', '\n', '(', 'c', ',', ' ', 'e', ')', '\n'] ∧
      final.backups = [(1, final.out)] := by
  have fresh : JobState.Accounts ⟨kvsInit, 0, [], 0, []⟩ ⟨∅, 0, [], 0, []⟩ :=
    ⟨createHashTable_holds, rfl, rfl, rfl, rfl⟩
  obtain ⟨final, ran, served⟩ :=
    (runJob_accounts otherWriter_keeps [] writeShowBackup (by decide) fresh).1 (by decide)
  have out := served.out.trans (by decide : _ = ascii ['(', 'a', ',', ' ', 'b', ')', '\n', '(', 'c',
    ',', ' ', 'e', ')', '\n'])
  exact ⟨final, ran, out, served.backups.trans (by rw [out]; decide)⟩

end Kvs.Server
