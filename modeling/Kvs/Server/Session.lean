/-
**A client's session (`run_client_requests` in `server/main.c`).**

A session reads requests from one pipe and answers on another. `Session` is what it holds between
two rounds of its loop: the pipes, `errno`, the key buffer (which keeps its bytes from one request
to the next), the table and the clients it shares with the other threads, and what it has done so
far. `requestRound` is one round of the `while` loop; the loop itself is a `WhileLoop`, as it need
not end.

`op_buffer`, `resp_buffer` and `result` are written in a round before they are read, and are no part
of the state. The other threads may change the table between any two calls of the session.
-/

import Kvs.Common.Io
import Kvs.Lib.WhileLoop
import Kvs.Server.Operations

namespace Kvs.Server

/-- The size of `key` in `run_client_requests`. -/
def keySize : ℕ := maxStringSize + 1

/-! ### Operations -/

/-- The operations that are requested for a key. -/
inductive KeyRequest where
  | subscribe | unsubscribe
deriving DecidableEq

/-- `OP_CODE_SUBSCRIBE` and `OP_CODE_UNSUBSCRIBE`. -/
def KeyRequest.code : KeyRequest → Code
  | .subscribe => .subscribe
  | .unsubscribe => .unsubscribe

/-- A store operation of a session, with its key. -/
inductive SessionOp where
  | onKey (request : KeyRequest) (key : CStr)
  | disconnect
deriving DecidableEq

namespace SessionOp

/-- The operation's code. -/
def code : SessionOp → Code
  | .onKey request _ => request.code
  | .disconnect => .disconnect

/-- Call the store for a client. -/
def perform (fd : Fd) : SessionOp → HashTable → Except Fault (Byte × HashTable)
  | .onKey .subscribe key, table => Server.subscribe key fd table
  | .onKey .unsubscribe key, table => Server.unsubscribe key fd table
  | .disconnect, table => .ok (Server.disconnect fd table)

end SessionOp

/-! ### The state -/

/-- `struct ActiveClients`, without its paths. -/
structure ActiveClient where
  reqFd : Fd
  respFd : Fd
  notifFd : Fd
deriving DecidableEq

/-- The parameters of `run_client_requests`, and the other threads' doings between its calls. -/
structure SessionPlace where
  reqPipeFd : Fd
  respPipeFd : Fd
  notifPipeFd : Fd
  index : ℕ
  /-- What the other threads do to the table before each call of the session. -/
  others : ℕ → HashTable → HashTable

/-- A place in a session table: the caller has found a free entry. -/
structure ServedPlace extends SessionPlace where
  inside : index < maxClients

/-- What a session holds between two rounds. -/
structure Session where
  requests : InPipe
  responses : OutPipe
  errno : Errno
  key : List Byte
  table : HashTable
  activeClients : Fin maxClients → ActiveClient
  /-- The descriptors it has closed. -/
  closed : List Fd
  /-- The store operations performed, with their results. -/
  performed : List (SessionOp × Byte)

/-- How a session ends. -/
inductive SessionEnd where
  /-- The function returns. -/
  | returned (session : Session)
  /-- `pthread_exit`. -/
  | exited (session : Session)
  /-- `SIGPIPE`, which nothing in the server catches: every thread ends. -/
  | killed (session : Session)
  /-- An access outside an array; `complete` says that the request was read in full. -/
  | fault (fault : Fault) (complete : Bool) (session : Session)

/-- Go on to the next round, or end. -/
abbrev Round := Session ⊕ SessionEnd

namespace Session

variable (place : SessionPlace)

/-! ### The steps of a round -/

/-- A call of the store. -/
def perform (op : SessionOp) (complete : Bool) (session : Session)
    (next : Byte → Session → Round) : Round :=
  match op.perform place.notifPipeFd (place.others session.performed.length session.table) with
  | .error fault => .inr (.fault fault complete session)
  | .ok (result, table) =>
    next result { session with table, performed := session.performed ++ [(op, result)] }

/-- The response to a request. The session is left when the pipe is closed; when the client has
closed its end of it, the `write` does not come back. -/
def respond (code : Code) (result : Byte) (session : Session) (next : Session → Round) : Round :=
  let written := writeAll [getCodeString code, result] session.responses session.errno
  let session := { session with responses := written.pipe, errno := written.errno }
  if written.code = -1 ∧ session.errno = .epipe then .inr (.killed session)
  else if written.code = -1 ∧ session.errno = .ebadf then .inr (.returned session)
  else next session

/-- `read_all(req_pipe_fd, key, sizeof(key), NULL)`. -/
def readKey (session : Session) : Int × Session :=
  let read := readAll keySize none session.requests session.errno
  (read.code, { session with
    requests := read.pipe, errno := read.errno,
    key := read.buffer ++ session.key.drop read.buffer.length })

/-- `case OP_CODE_SUBSCRIBE`. -/
def subscribeRound (session : Session) : Round :=
  let (code, session) := session.readKey
  if code = -1 ∧ session.errno = .ebadf then .inr (.returned session)
  else session.perform place (.onKey .subscribe (CStr.ofBuffer session.key)) (code = 1)
    fun result session => session.respond .subscribe result .inl

/-- `case OP_CODE_UNSUBSCRIBE`. -/
def unsubscribeRound (session : Session) : Round :=
  let (code, session) := session.readKey
  if code = -1 then
    if session.errno = .ebadf then .inr (.returned session) else .inr (.exited session)
  else session.perform place (.onKey .unsubscribe (CStr.ofBuffer session.key)) (code = 1)
    fun result session => session.respond .unsubscribe result .inl

/-- `case OP_CODE_DISCONNECT`. -/
def disconnectRound (session : Session) : Round :=
  session.perform place .disconnect true fun result session =>
    if inside : place.index < maxClients then
      let activeClients := Function.update session.activeClients ⟨place.index, inside⟩ ⟨0, 0, 0⟩
      { session with activeClients }.respond .disconnect result fun session =>
        .inr (.returned { session with
          closed := session.closed ++ [place.reqPipeFd, place.notifPipeFd, place.respPipeFd] })
    else .inr (.fault (.activeClient place.index) true session)

/-- One round of `run_client_requests`. -/
def requestRound (session : Session) : Round :=
  let read := readAll 1 none session.requests session.errno
  let session := { session with requests := read.pipe, errno := read.errno }
  if read.code ≠ 1 then
    if session.errno = .ebadf then .inr (.returned session) else .inl session
  else
    match getCode (read.buffer.headD nul) with
    | .subscribe => session.subscribeRound place
    | .unsubscribe => session.unsubscribeRound place
    | .disconnect => session.disconnectRound place
    | .invalid | .connect => .inl session

end Session

end Kvs.Server
