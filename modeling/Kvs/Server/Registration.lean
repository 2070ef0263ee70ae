/-
**Registering clients (`server/main.c`).**

A client that connects sends the host thread one frame with the paths of its three pipes. The host
stores the paths in a ring of `MAX_CLIENTS` slots, and the worker threads copy them out. The ring is
a `BoundedBuffer`: `productor_buffer` and `consumer_buffer` are its semaphores, `semExMut` its lock.
`assing_pipe_data` lays a frame down in a slot; a worker copies each path of a slot to an array of
its own.

`Turn.fire` is one step of the host or of a worker. Between posting a space and waiting for the next
item a worker is in a session, which does not touch the ring. The semaphores and the lock are taken
to behave as POSIX says, and `sem_wait` to return only with a unit taken.
-/

import Kvs.Common.Io
import Kvs.Lib.BoundedBuffer
import Kvs.Server.Fields

namespace Kvs.Server

/-- `MAX_PIPE_PATH_LENGTH` (`common/constants.h`). -/
def maxPipePathLength : ℕ := 40

/-- The size of a connect frame: an opcode and three paths. -/
def connectSize : ℕ := 1 + maxPipePathLength * 3

/-! ### Paths -/

/-- `char path[MAX_PIPE_PATH_LENGTH]`. -/
structure PathField where
  bytes : List Byte
  length_eq : bytes.length = maxPipePathLength
deriving DecidableEq

/-- `strncpy(path, src, MAX_PIPE_PATH_LENGTH)`. -/
def copyPath (src : List Byte) : PathField :=
  ⟨strncpy maxPipePathLength src, strncpy_length _ _⟩

/-- `struct PipeData`, and the three arrays of a worker. -/
structure PipeData where
  reqPipePath : PathField
  respPipePath : PathField
  notifPipePath : PathField
deriving DecidableEq

/-- `assing_pipe_data`: the slot after the three paths are stored in it. -/
def assingPipeData (pipesPath : List Byte) : PipeData where
  reqPipePath := copyPath pipesPath
  respPipePath := copyPath (pipesPath.drop maxPipePathLength)
  notifPipePath := copyPath (pipesPath.drop (2 * maxPipePathLength))

/-- The three `strncpy` of `client_thread`. -/
def copyOut (slot : PipeData) : PipeData where
  reqPipePath := copyPath slot.reqPipePath.bytes
  respPipePath := copyPath slot.respPipePath.bytes
  notifPipePath := copyPath slot.notifPipePath.bytes

/-! ### The host and the workers -/

/-- `char buffer[1 + MAX_PIPE_PATH_LENGTH * 3]`, filled by `read_all`. -/
structure ConnectFrame where
  bytes : List Byte
  length_eq : bytes.length = connectSize
deriving DecidableEq

/-- `buffer[0]`. -/
def ConnectFrame.opCode (frame : ConnectFrame) : Byte := frame.bytes.headD nul

/-- `buffer + 1`. -/
def ConnectFrame.pipesPath (frame : ConnectFrame) : List Byte := frame.bytes.tail

/-- The ring with the host and the workers. -/
abbrev Registration :=
  BoundedBuffer.System (List Byte) PipeData PipeData (Fin maxClients) maxClients

/-- The ring `requests_buffer_init` and `sem_init` leave; its slots are not initialised. -/
def registrationInit (memory : Fin maxClients → PipeData) : Registration :=
  BoundedBuffer.initially memory

/-- Whose turn it is. -/
inductive Turn where
  /-- `read_all` returns `1` to the host with this frame. -/
  | read (frame : ConnectFrame)
  | host
  | worker (worker : Fin maxClients)
deriving DecidableEq

/-- One step of the host or of a worker. -/
def Turn.fire : Turn → Registration → Option Registration
  | read frame, ring =>
    match ring.producer with
    | .idle =>
      if getCode frame.opCode = .connect then
        BoundedBuffer.fire assingPipeData copyOut (.produce frame.pipesPath) ring
      else some ring
    | _ => none
  | host, ring => BoundedBuffer.fire assingPipeData copyOut .producer ring
  | worker thread, ring => BoundedBuffer.fire assingPipeData copyOut (.consumer thread) ring

/-! ### Copies of copies -/

/-- `strncpy` of what `strncpy` wrote writes the same. -/
theorem copyPath_copyPath (src : List Byte) : copyPath (copyPath src).bytes = copyPath src := by
  unfold copyPath
  congr 1
  exact strncpy_strncpy _ src

/-- A worker's arrays hold what the host stored. -/
theorem copyOut_assingPipeData (pipesPath : List Byte) :
    copyOut (assingPipeData pipesPath) = assingPipeData pipesPath := by
  simp only [copyOut, assingPipeData, copyPath_copyPath]

end Kvs.Server
