/-
**The server's threads and their descriptors (`server/main.c`).**

The process has one descriptor table. The workers (`client_thread`, `run_client_requests`) open
three pipes for a session, record them in `active_clients`, serve requests and close them; the job
threads (`get_file`, `run_job`) open and close their files and run commands; the host thread
(`managing_clients`) closes on SIGUSR1 whatever `active_clients` holds and empties all subscriber
slots. `Process.fire` is one step of any of them: one open, close, read or write call, one access to
an entry of `active_clients`, one operation on the table. What the world outside does at a step (a
client connects, bytes arrive, an open fails) is the step's `Outside`; what the step does to the
shared state is its `Effect`.

* A read or write call finds its file when it is made; a read that blocks stays on that file.
  Reading from a descriptor that is not open for reading fails with `EBADF`, and so does writing.
* `read_all` and `write_all` call `perror` before they return `-1`, and `perror` may leave any
  `errno` behind. Whether the test for `EBADF` then succeeds is up to the world outside: a worker
  may leave `run_client_requests` after a failed call, and it may go on in it.
* `read_all` and `write_all` are as many calls as the bytes take.
* A command of a job holds the table's lock throughout. Subscribing, unsubscribing, `disconnect`
  and `disconnect_all` take the lock for one operation, so they wait while a job holds it.
* `owners` remembers whose SUBSCRIBE filled a slot, `hostClosed`, `swept` and `cut` what a SIGUSR1
  has closed, and `log` what was read and written.

Opening can fail at any time, the path of a pipe is not looked at here, and keys are those the table
has a bucket for. The ring of registrations comes before `waiting` and is a module of its own.
-/

import Kvs.Lib.DescriptorTable
import Kvs.Lib.Interleaving
import Kvs.Job.Independence
import Kvs.Server.Session

namespace Kvs.Server

open DescriptorTable

/-! ### Files -/

/-- What a descriptor is open on: a pipe of a session, a file of a job, or what was open before the
threads started. -/
inductive File where
  | request (session : ℕ)
  | response (session : ℕ)
  | notification (session : ℕ)
  | jobIn
  | jobOut
  | other
deriving DecidableEq

namespace File

/-- Open for reading. -/
def readable : File → Bool
  | request _ | jobIn | other => true
  | response _ | notification _ | jobOut => false

/-- Open for writing. -/
def writable : File → Bool
  | response _ | notification _ | jobOut | other => true
  | request _ | jobIn => false

end File

/-! ### Entries of `active_clients` -/

/-- The three descriptors of a session. -/
inductive Field where
  | req | resp | notif
deriving DecidableEq

/-- The entry with one field stored. -/
def ActiveClient.store (entry : ActiveClient) (field : Field) (value : Fd) : ActiveClient :=
  match field with
  | .req => { entry with reqFd := value }
  | .resp => { entry with respFd := value }
  | .notif => { entry with notifFd := value }

/-- A field of the entry. -/
def ActiveClient.load (entry : ActiveClient) : Field → Fd
  | .req => entry.reqFd
  | .resp => entry.respFd
  | .notif => entry.notifFd

/-- The local variables of `client_thread` for one session. -/
structure Connection where
  session : ℕ
  reqFd : ℕ
  respFd : ℕ
  notifFd : ℕ
deriving DecidableEq

/-- A descriptor of the session. -/
def Connection.fd (connection : Connection) : Field → ℕ
  | .req => connection.reqFd
  | .resp => connection.respFd
  | .notif => connection.notifFd

/-! ### Where the threads stand -/

/-- What `run_client_requests` reads: an operation code, or the key of a request. -/
inductive Reading where
  | op
  | key (request : KeyRequest)
deriving DecidableEq

/-- Where a worker stands in `run_client_requests`. -/
inductive RequestPoint where
  /-- About to call `read`. -/
  | reading (what : Reading)
  /-- In a call of `read`. -/
  | blocked (what : Reading) (file : File)
  /-- About to call `subscribe` or `unsubscribe`. -/
  | changing (request : KeyRequest) (key : Key)
  /-- About to call `write`; `last` is the answer to a DISCONNECT. -/
  | responding (last : Bool)
  | disconnecting
  | clearing (field : Field)
  | closing (field : Field)
deriving DecidableEq

/-- Where a worker stands in `client_thread`. -/
inductive WorkerPoint where
  | waiting
  | openingReq (session : ℕ)
  | openingResp (session reqFd : ℕ)
  | openingNotif (session reqFd respFd : ℕ)
  /-- An open failed: the descriptors still to close. -/
  | givingUp (fds : List ℕ)
  | connecting (connection : Connection)
  /-- In the scan for a free entry. -/
  | testing (connection : Connection) (index : ℕ)
  | storing (connection : Connection) (index : Fin maxClients) (field : Field)
  | serving (connection : Connection) (index : ℕ) (point : RequestPoint)
  /-- `pthread_exit`. -/
  | exited (connection : Connection) (index : ℕ)
deriving DecidableEq

/-- Where the host stands with a SIGUSR1. -/
inductive HostPoint where
  | idle
  | testing (index : ℕ)
  | closing (index : Fin maxClients) (field : Field)
  | clearing (index : Fin maxClients) (field : Field)
  | disconnecting
deriving DecidableEq

/-- A frame still to be written: the descriptor in the slot, and whose SUBSCRIBE put it there. -/
structure Frame where
  fd : Fd
  owner : ℕ
deriving DecidableEq

/-- Where a job thread stands; `calls` are the calls its command has still to make. -/
inductive JobPoint where
  | openingIn
  | openingOut (inFd : ℕ)
  | working (inFd outFd : ℕ)
  /-- Within a command, holding the lock. -/
  | holding (inFd outFd : ℕ) (calls : List PairOp)
  /-- Within `write_pair` or `delete_pair`; `after` is the table it leaves. -/
  | notifying (inFd outFd : ℕ) (frames : List Frame) (after : HashTable) (calls : List PairOp)
  | closingIn (inFd outFd : ℕ)
  | closingOut (outFd : ℕ)
  | exited
deriving DecidableEq

/-! ### The process -/

/-- Bytes that were read or written. -/
inductive Transfer where
  /-- Request bytes of a session, and where they were read from. -/
  | consumed (session : ℕ) (file : File)
  /-- Response bytes of a session, and where they were written to. -/
  | responded (session : ℕ) (file : File)
  /-- A frame for a subscriber, and where it was written to. -/
  | notified (owner : ℕ) (file : File)
deriving DecidableEq

/-- The shared state, and where every thread stands. -/
structure Process (τ : Type) where
  files : Table File
  activeClients : Fin maxClients → ActiveClient
  table : HashTable
  /-- The session whose SUBSCRIBE filled a slot of a key. -/
  owners : CStr → ℕ → ℕ
  /-- The job thread that holds the table's lock. -/
  lock : Option τ
  host : HostPoint
  workers : Fin maxClients → WorkerPoint
  jobs : τ → JobPoint
  /-- The number of sessions begun. -/
  sessions : ℕ
  /-- The files `close_all_clients` has closed. -/
  hostClosed : List File
  /-- Those it had closed when `disconnect_all` last returned. -/
  swept : List File
  /-- The sessions whose request descriptor `close_all_clients` has closed by way of their entry. -/
  cut : List ℕ
  log : List Transfer

/-- What the world outside does at a step. -/
inductive Outside where
  /-- Nothing. -/
  | nothing
  /-- A client connects, or SIGUSR1 arrives. -/
  | arrives
  | opens (success : Bool)
  /-- An operation code arrives. -/
  | code (code : Code)
  /-- The end of the stream or an error, and whether `errno` is `EBADF` afterwards. -/
  | noCode (badFd : Bool)
  /-- Some bytes of a key arrive, but not the last. -/
  | part
  /-- The last bytes of a key arrive. -/
  | key (key : Key)
  /-- The stream ends within a key; what the key buffer holds. -/
  | ends (key : Key)
  /-- Reading the key fails, and `errno` is not `EBADF` afterwards; what the key buffer holds. -/
  | fails (key : Key)
  /-- Bytes are written; whether they are the last. -/
  | wrote (whole : Bool)
  /-- Writing fails, and `errno` is not `EBADF` afterwards. -/
  | writeFails
  /-- The job's next command of those that take the lock. -/
  | command (calls : List PairOp)
  /-- The job's commands are at their end. -/
  | finished
deriving DecidableEq

/-- What a call of `write` does. -/
inductive WriteCall where
  /-- It fails, and `errno` is `EBADF` afterwards. -/
  | badFd
  | moved (file : File) (whole : Bool)
  /-- It fails, and `errno` is something else. -/
  | fails
deriving DecidableEq

/-- A call of `write`. -/
def writeCall (files : Table File) (fd : ℕ) (outside : Outside) : Option WriteCall :=
  match (file files fd).filter File.writable, outside with
  | none, .writeFails | some _, .writeFails => some .fails
  | none, _ | some _, .noCode true => some .badFd
  | some file, .wrote whole => some (.moved file whole)
  | some _, _ => none

/-- What the file of a call of `read` is; none when the call fails with `EBADF`. -/
def readCall (files : Table File) (fd : ℕ) : Option File :=
  (file files fd).filter File.readable

/-! ### What a step does to the shared state -/

/-- The effect of a step on the shared state. -/
inductive Effect (τ : Type) where
  | none
  /-- A session begins. -/
  | begins
  | opens (file : File)
  | closes (fd : ℕ)
  /-- `close_all_clients` closes what a field of an entry holds. -/
  | hostCloses (index : Fin maxClients) (field : Field)
  | transfers (transfer : Transfer)
  | stores (index : Fin maxClients) (field : Field) (value : Fd)
  /-- An operation on the table, under its lock. -/
  | operates (op : StoreOp)
  /-- The same, for the SUBSCRIBE of a session. -/
  | subscribes (key : Key) (connection : Connection)
  /-- The same, for `disconnect_all`. -/
  | sweeps
  | locks (thread : τ)
  | unlocks
  /-- A call made under the lock leaves its table. -/
  | leaves (table : HashTable)

/-- Whose the slots are after a `subscribe`: the first empty slot of the key is the session's. -/
def ownersAfter (table : HashTable) (owners : CStr → ℕ → ℕ) (key : CStr) (session : ℕ) :
    CStr → ℕ → ℕ :=
  match table.lookup key with
  | some node =>
    Function.update owners key
      (Function.update (owners key) (node.subscribersFds.fds.idxOf 0) session)
  | none => owners

namespace Process

variable {τ : Type}

/-- The threads about to start; the first `opened` descriptors are in use. -/
def start (opened : ℕ) : Process τ where
  files := List.replicate opened (some .other)
  activeClients _ := ⟨0, 0, 0⟩
  table := createHashTable
  owners _ _ := 0
  lock := none
  host := .idle
  workers _ := .waiting
  jobs _ := .openingIn
  sessions := 0
  hostClosed := []
  swept := []
  cut := []
  log := []

/-- The session a worker has stored a request descriptor for in an entry. -/
def registeredBy (index : ℕ) : WorkerPoint → Option ℕ
  | .storing connection own .resp | .storing connection own .notif =>
    if own.val = index then some connection.session else none
  | .serving connection own _ | .exited connection own =>
    if own = index then some connection.session else none
  | _ => none

/-- An operation on the table, made when no job holds the lock. -/
def operate (process : Process τ) (op : StoreOp) : Option (Process τ) :=
  if process.lock.isNone then
    match op.exec process.table with
    | .ok outcome => some { process with table := outcome.table }
    | .error _ => none
  else none

/-- The shared state after a step; none when the step has to wait for the lock. -/
def perform (process : Process τ) : Effect τ → Option (Process τ)
  | .none => some process
  | .begins => some { process with sessions := process.sessions + 1 }
  | .opens new => some { process with files := opened process.files new }
  | .closes fd => some { process with files := closed process.files fd }
  | .hostCloses index field =>
    let fd := ((process.activeClients index).load field).toNat
    some { process with
      files := closed process.files fd
      hostClosed := process.hostClosed ++ (file process.files fd).toList
      cut := process.cut ++ if field = .req then
          (List.finRange maxClients).filterMap fun worker =>
            registeredBy index (process.workers worker)
        else [] }
  | .transfers transfer => some { process with log := process.log ++ [transfer] }
  | .stores index field value =>
    some { process with
      activeClients := Function.update process.activeClients index
        ((process.activeClients index).store field value) }
  | .operates op => process.operate op
  | .subscribes key connection =>
    (process.operate (.writeSubscription key connection.notifFd)).map fun after =>
      { after with
        owners := ownersAfter process.table process.owners key.1 connection.session }
  | .sweeps =>
    (process.operate .disconnectAll).map fun after => { after with swept := process.hostClosed }
  | .locks thread =>
    if process.lock.isNone then some { process with lock := some thread } else none
  | .unlocks => some { process with lock := none }
  | .leaves table => some { process with table := table }

/-! ### A worker's step -/

/-- Where a worker goes after a read from a bad descriptor. -/
def afterBadRead (connection : Connection) (index : ℕ) : Reading → Outside → WorkerPoint
  | .op, .noCode false => .serving connection index (.reading .op)
  | .key .subscribe, .fails key => .serving connection index (.changing .subscribe key)
  | .key .unsubscribe, .fails _ => .exited connection index
  | _, _ => .waiting

/-- A step within `run_client_requests`: its effect, and where the worker goes. -/
def serve (process : Process τ) (connection : Connection) (index : ℕ) (outside : Outside) :
    RequestPoint → Option (Effect τ × WorkerPoint)
  | .reading what =>
    match readCall process.files connection.reqFd with
    | some file => some (.none, .serving connection index (.blocked what file))
    | none => some (.none, afterBadRead connection index what outside)
  | .blocked .op file =>
    match outside with
    | .code code =>
      some (.transfers (.consumed connection.session file), .serving connection index
        (match code with
          | .subscribe => .reading (.key .subscribe)
          | .unsubscribe => .reading (.key .unsubscribe)
          | .disconnect => .disconnecting
          | .connect | .invalid => .reading .op))
    | .noCode badFd =>
      some (.none, if badFd then .waiting else .serving connection index (.reading .op))
    | _ => none
  | .blocked (.key request) file =>
    match outside with
    | .part =>
      some (.transfers (.consumed connection.session file),
        .serving connection index (.reading (.key request)))
    | .key key =>
      some (.transfers (.consumed connection.session file),
        .serving connection index (.changing request key))
    | .ends key => some (.none, .serving connection index (.changing request key))
    | .fails key =>
      -- UNSUBSCRIBE gives the thread up, SUBSCRIBE goes on with what the buffer holds
      some (.none, match request with
        | .subscribe => .serving connection index (.changing .subscribe key)
        | .unsubscribe => .exited connection index)
    | .noCode true => some (.none, .waiting)
    | _ => none
  | .changing .subscribe key =>
    some (.subscribes key connection, .serving connection index (.responding false))
  | .changing .unsubscribe key =>
    some (.operates (.deleteSubscription key connection.notifFd),
      .serving connection index (.responding false))
  | .responding last =>
    (writeCall process.files connection.respFd outside).map fun call =>
      match call with
      | .badFd => (.none, .waiting)
      | .moved file whole =>
        (.transfers (.responded connection.session file), .serving connection index
          (if whole = false then .responding last
            else if last then .closing .req else .reading .op))
      | .fails =>
        (.none, .serving connection index (if last then .closing .req else .reading .op))
  | .disconnecting =>
    some (.operates (.disconnect connection.notifFd),
      .serving connection index (.clearing .req))
  | .clearing field =>
    if inside : index < maxClients then
      some (.stores ⟨index, inside⟩ field 0, .serving connection index
        (match field with
          | .req => .clearing .resp
          | .resp => .clearing .notif
          | .notif => .responding true))
    else none
  | .closing field =>
    some (.closes (connection.fd field),
      match field with
      | .req => .serving connection index (.closing .notif)
      | .notif => .serving connection index (.closing .resp)
      | .resp => .waiting)

/-- A step of a worker: its effect, and where the worker goes. -/
def workerStep (process : Process τ) (outside : Outside) :
    WorkerPoint → Option (Effect τ × WorkerPoint)
  | .waiting =>
    match outside with
    | .arrives => some (.begins, .openingReq process.sessions)
    | _ => none
  | .openingReq session =>
    match outside with
    | .opens true =>
      some (.opens (.request session), .openingResp session (lowest process.files))
    | .opens false => some (.none, .waiting)
    | _ => none
  | .openingResp session reqFd =>
    match outside with
    | .opens true =>
      some (.opens (.response session), .openingNotif session reqFd (lowest process.files))
    | .opens false => some (.none, .givingUp [reqFd])
    | _ => none
  | .openingNotif session reqFd respFd =>
    match outside with
    | .opens true =>
      some (.opens (.notification session),
        .connecting ⟨session, reqFd, respFd, lowest process.files⟩)
    | .opens false => some (.none, .givingUp [reqFd, respFd])
    | _ => none
  | .givingUp [] => some (.none, .waiting)
  | .givingUp (fd :: fds) => some (.closes fd, .givingUp fds)
  | .connecting connection =>
    -- the result of this `write_all` is not looked at
    (writeCall process.files connection.respFd outside).map fun call =>
      match call with
      | .moved file whole =>
        (.transfers (.responded connection.session file),
          if whole then .testing connection 0 else .connecting connection)
      | .badFd | .fails => (.none, .testing connection 0)
  | .testing connection index =>
    if inside : index < maxClients then
      if (process.activeClients ⟨index, inside⟩).reqFd = 0 then
        some (.none, .storing connection ⟨index, inside⟩ .req)
      else some (.none, .testing connection (index + 1))
    else some (.none, .serving connection index (.reading .op))
  | .storing connection index field =>
    some (.stores index field (connection.fd field),
      match field with
      | .req => .storing connection index .resp
      | .resp => .storing connection index .notif
      | .notif => .serving connection index (.reading .op))
  | .serving connection index point => process.serve connection index outside point
  | .exited _ _ => none

/-! ### The host's step -/

/-- A step of the host's SIGUSR1 handling: its effect, and where the host goes. -/
def hostStep (process : Process τ) (outside : Outside) : HostPoint → Option (Effect τ × HostPoint)
  | .idle =>
    match outside with
    | .arrives => some (.none, .testing 0)
    | _ => none
  | .testing index =>
    if inside : index < maxClients then
      if (process.activeClients ⟨index, inside⟩).reqFd ≠ 0 then
        some (.none, .closing ⟨index, inside⟩ .req)
      else some (.none, .testing (index + 1))
    else some (.none, .disconnecting)
  | .closing index field =>
    some (.hostCloses index field,
      match field with
      | .req => .closing index .resp
      | .resp => .closing index .notif
      | .notif => .clearing index .req)
  | .clearing index field =>
    some (.stores index field 0,
      match field with
      | .req => .clearing index .resp
      | .resp => .clearing index .notif
      | .notif => .testing (index + 1))
  | .disconnecting => some (.sweeps, .idle)

/-! ### A job thread's step -/

/-- The frames `write_pair` or `delete_pair` writes for the occupied slots of a key. -/
def framesOf (process : Process τ) (key : CStr) : List Frame :=
  match process.table.lookup key with
  | some node =>
    (node.subscribersFds.fds.zipIdx.filter fun slot => slot.1 ≠ 0).map fun slot =>
      ⟨slot.1, process.owners key slot.2⟩
  | none => []

/-- The frames a call writes. -/
def framesOfCall (process : Process τ) : PairOp → List Frame
  | .write key _ | .delete key => process.framesOf key.1
  | .read _ => []

/-- A step of a job thread: its effect, and where the thread goes. -/
def jobStep (process : Process τ) (thread : τ) (outside : Outside) :
    JobPoint → Option (Effect τ × JobPoint)
  | .openingIn =>
    match outside with
    | .opens true => some (.opens .jobIn, .openingOut (lowest process.files))
    | .opens false => some (.none, .exited)
    | _ => none
  | .openingOut inFd =>
    match outside with
    | .opens true => some (.opens .jobOut, .working inFd (lowest process.files))
    | .opens false => some (.none, .exited)
    | _ => none
  | .working inFd outFd =>
    match outside with
    | .command calls => some (.locks thread, .holding inFd outFd calls)
    | .finished => some (.none, .closingIn inFd outFd)
    | _ => none
  | .holding inFd outFd [] => some (.unlocks, .working inFd outFd)
  | .holding inFd outFd (call :: calls) =>
    match call.exec process.table with
    | .ok (_, after) =>
      some (.none, .notifying inFd outFd (process.framesOfCall call) after calls)
    | .error _ => none
  | .notifying inFd outFd [] after calls => some (.leaves after, .holding inFd outFd calls)
  | .notifying inFd outFd (frame :: frames) after calls =>
    (writeCall process.files frame.fd.toNat outside).map fun call =>
      match call with
      | .moved file whole =>
        (.transfers (.notified frame.owner file),
          .notifying inFd outFd (if whole then frames else frame :: frames) after calls)
      | .badFd | .fails => (.none, .notifying inFd outFd frames after calls)
  | .closingIn inFd outFd => some (.closes inFd, .closingOut outFd)
  | .closingOut outFd => some (.closes outFd, .openingIn)
  | .exited => none

/-! ### One step of anybody -/

/-- Whose turn it is. -/
inductive Turn (τ : Type) where
  | worker (thread : Fin maxClients) (outside : Outside)
  | host (outside : Outside)
  | job (thread : τ) (outside : Outside)

variable [DecidableEq τ]

/-- One step. -/
def fire : Turn τ → Process τ → Option (Process τ)
  | .worker thread outside, process =>
    (process.workerStep outside (process.workers thread)).bind fun (effect, point) =>
      (process.perform effect).map fun after =>
        { after with workers := Function.update process.workers thread point }
  | .host outside, process =>
    (process.hostStep outside process.host).bind fun (effect, point) =>
      (process.perform effect).map fun after => { after with host := point }
  | .job thread outside, process =>
    (process.jobStep thread outside (process.jobs thread)).bind fun (effect, point) =>
      (process.perform effect).map fun after =>
        { after with jobs := Function.update process.jobs thread point }

end Process

end Kvs.Server
