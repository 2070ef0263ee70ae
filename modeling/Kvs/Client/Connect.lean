/-
**Many clients connect at once (`client/api.c`, `server/main.c`).**

`kvs_connect` creates three pipes, writes its frame to the register pipe and opens the pipes one
after another; then it reads the server's response. The host reads the frames and stores them in the
ring, a worker copies the paths out and opens the same pipes, and responds. An `open` of a pipe
blocks until the other side has come to open it too, so both sides have to come to the pipes in the
same order.

`Lobby` is all of them together: the clients, the register pipe, the ring with its host and its
workers (`Registration`), and where each worker stands once it has its copies. A party at a point
`opening` is within `open`. `Lobby.fire` is one step of one of them.

A write of a frame is at most `PIPE_BUF` bytes and so not divided, and the register pipe has room
for it; the server has the register pipe open. The clients keep running, and `SIGUSR1` is not sent.
-/

import Kvs.Client.Handshake

namespace Kvs.Client

open Server

/-! ### Clients -/

/-- A client whose paths leave room for their NULs in the frame. -/
structure Visitor where
  client : ClientId
  short : client.id.length ≤ 29

namespace Visitor

variable (visitor : Visitor)

/-- The paths of its pipes. -/
def paths : PipePaths := visitor.client.paths

theorem fit : visitor.paths.Fit := by
  obtain ⟨req, resp, notif⟩ := paths_length visitor.client
  have short := visitor.short
  constructor <;> unfold maxPipePathLength <;> rw [paths] <;> omega

/-- What it writes to the register pipe. -/
def frame : ConnectFrame where
  bytes := getCodeString .connect :: fields visitor.paths
  length_eq := by
    rw [List.length_cons, fields_length visitor.fit]
    rfl

theorem frame_opCode : getCode visitor.frame.opCode = .connect := getCode_getCodeString .connect

/-- What a worker copies out for it. -/
def copies : PipeData := copyOut (assingPipeData visitor.frame.pipesPath)

/-- **A worker opens the pipes it created.** -/
theorem openedPaths_copies : openedPaths visitor.copies = some visitor.paths := by
  obtain ⟨reqLength, respLength, notifLength⟩ := paths_length visitor.client
  obtain ⟨req, resp, notif⟩ := assingPipeData_fields visitor.fit
  have short := visitor.short
  have same : visitor.copies = assingPipeData (fields visitor.paths) := copyOut_assingPipeData _
  have room : ∀ {str : CStr}, str.length ≤ 10 + visitor.client.id.length →
      str.length < maxPipePathLength := by
    intro str within
    unfold maxPipePathLength
    omega
  rw [same, openedPaths, path_padded req, path_padded resp, path_padded notif,
    if_pos (room (by rw [paths]; omega)), if_pos (room (by rw [paths]; omega)),
    if_pos (room (by rw [paths]; omega))]
  rfl

end Visitor

/-! ### Points -/

/-- The pipes of a session. -/
inductive SessionPipe where
  | req | resp | notif
deriving DecidableEq

/-- The order in which both sides open them. -/
def SessionPipe.rank : SessionPipe → ℕ
  | req => 1
  | resp => 2
  | notif => 3

/-- Where a client stands in `kvs_connect`. -/
inductive ConnectPoint where
  | creating
  /-- Before it writes its frame. -/
  | registering
  | opening (pipe : SessionPipe)
  /-- Within the `read_all` of the response. -/
  | awaiting
  | connected
  /-- It has disconnected. -/
  | left
deriving DecidableEq

/-- Where a worker stands that has its copies. -/
inductive ServePoint where
  | opening (pipe : SessionPipe)
  /-- Before it writes the response. -/
  | responding
  /-- In `run_client_requests`. -/
  | serving
deriving DecidableEq

namespace ConnectPoint

/-- The pipes it has come to open. -/
def reached : ConnectPoint → ℕ
  | creating | registering | left => 0
  | opening pipe => pipe.rank
  | awaiting | connected => 4

/-- Where it goes on when `open` returns. -/
def opened : SessionPipe → ConnectPoint
  | .req => opening .resp
  | .resp => opening .notif
  | .notif => awaiting

end ConnectPoint

namespace ServePoint

/-- The pipes it has come to open. -/
def reached : ServePoint → ℕ
  | opening pipe => pipe.rank
  | responding | serving => 4

/-- Where it goes on when `open` returns. -/
def opened : SessionPipe → ServePoint
  | .req => opening .resp
  | .resp => opening .notif
  | .notif => responding

end ServePoint

/-! ### The lobby -/

/-- The clients `γ` and the server. -/
structure Lobby (γ : Type) where
  ring : Registration
  /-- The clients whose frames are in the register pipe. -/
  fifo : List γ
  clients : γ → ConnectPoint
  workers : Fin maxClients → ServePoint

namespace Lobby

variable {γ : Type}

/-- No client has started. -/
def initially (memory : Fin maxClients → PipeData) : Lobby γ where
  ring := registrationInit memory
  fifo := []
  clients _ := .creating
  workers _ := .opening .req

/-- Whose turn it is. -/
inductive Event (γ : Type) where
  /-- The client's next step in `kvs_connect`. -/
  | client (client : γ)
  /-- The host reads a frame. -/
  | read
  | host
  | worker (worker : Fin maxClients)
  /-- The client disconnects, and its worker goes back to the ring. -/
  | leave (client : γ) (worker : Fin maxClients)
deriving DecidableEq

variable (visitors : γ → Visitor)

/-- The paths a worker with its copies opens. -/
def opens : BoundedBuffer.Consumer PipeData → Option PipePaths
  | .working copies => openedPaths copies
  | _ => none

/-- The worker opens the client's pipes. -/
def Meets (lobby : Lobby γ) (client : γ) (worker : Fin maxClients) : Prop :=
  opens (lobby.ring.consumers worker) = some (visitors client).paths

instance (lobby : Lobby γ) (client : γ) : DecidablePred (lobby.Meets visitors client) :=
  fun _ => inferInstanceAs (Decidable (_ = _))

variable [Fintype γ] [DecidableEq γ]

/-- A client's next step; none when it waits. -/
def clientStep (lobby : Lobby γ) (client : γ) : Option (Lobby γ) :=
  let goTo (point : ConnectPoint) := Function.update lobby.clients client point
  match lobby.clients client with
  | .creating => some { lobby with clients := goTo .registering }
  | .registering =>
    some { lobby with fifo := lobby.fifo ++ [client], clients := goTo (.opening .req) }
  | .opening pipe =>
    if ∃ worker, lobby.Meets visitors client worker ∧
        pipe.rank ≤ (lobby.workers worker).reached then
      some { lobby with clients := goTo (.opened pipe) }
    else none
  | .awaiting =>
    if ∃ worker, lobby.Meets visitors client worker ∧ lobby.workers worker = .serving then
      some { lobby with clients := goTo .connected }
    else none
  | .connected | .left => none

/-- A worker's next step with its copies; none when it waits. -/
def serveStep (lobby : Lobby γ) (worker : Fin maxClients) : Option (Lobby γ) :=
  let goTo (point : ServePoint) := Function.update lobby.workers worker point
  match lobby.workers worker with
  | .opening pipe =>
    if ∃ client, lobby.Meets visitors client worker ∧
        pipe.rank ≤ (lobby.clients client).reached then
      some { lobby with workers := goTo (.opened pipe) }
    else none
  | .responding => some { lobby with workers := goTo .serving }
  | .serving => none

/-- One step; none when it cannot be taken. -/
def fire : Event γ → Lobby γ → Option (Lobby γ)
  | .client client, lobby => lobby.clientStep visitors client
  | .read, lobby =>
    match lobby.fifo with
    | [] => none
    | client :: fifo =>
      ((Turn.read (visitors client).frame).fire lobby.ring).map fun ring =>
        { lobby with ring, fifo }
  | .host, lobby => (Turn.host.fire lobby.ring).map fun ring => { lobby with ring }
  | .worker worker, lobby =>
    match lobby.ring.consumers worker with
    | .working _ => lobby.serveStep visitors worker
    | _ => ((Turn.worker worker).fire lobby.ring).map fun ring =>
        { lobby with
          ring, workers := Function.update lobby.workers worker (.opening .req) }
  | .leave client worker, lobby =>
    if lobby.clients client = .connected ∧ lobby.Meets visitors client worker ∧
        lobby.workers worker = .serving then
      ((Turn.worker worker).fire lobby.ring).map fun ring =>
        { lobby with ring, clients := Function.update lobby.clients client .left }
    else none

end Lobby

end Kvs.Client
