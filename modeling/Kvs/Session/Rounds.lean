/-
**One round of a session.**

On pipes whose calls are at most interrupted, a round is decided by the bytes to come. `View` is
what can be seen of a session, without `errno` and the events of its pipes; each step of a round has
one lemma that gives the view after it, and `round_*` put the steps together. What only reads
(`Reads`) does not ask how the responses fare.

* a request for a key is performed and answered (`round_onKey`);
* `DISCONNECT` is performed and answered, and the session returns (`round_disconnect`);
* any other opcode is skipped (`round_ignored`);
* at the end of the bytes nothing is done (`round_end`); but in the middle of a key the request is
  performed for what the key buffer then holds (`round_truncated`).
-/

import Kvs.Server.Session

namespace Kvs.Server

open WhileLoop

/-- What can be seen of a session. -/
structure View where
  bytes : List Byte
  sent : List Byte
  table : HashTable
  activeClients : Fin maxClients → ActiveClient
  closed : List Fd
  performed : List (SessionOp × Byte)

namespace Session

/-- The session as it can be seen. -/
def view (session : Session) : View :=
  ⟨session.requests.bytes, session.responses.sent, session.table, session.activeClients,
    session.closed, session.performed⟩

/-- The calls on the request pipe are at most interrupted, and the key buffer has its size. -/
structure Reading (session : Session) : Prop where
  requests : Kvs.Healthy session.requests.events
  key : session.key.length = keySize

/-- The calls on the response pipe are at most interrupted, too. -/
structure Healthy (session : Session) : Prop extends Reading session where
  responses : Kvs.Healthy session.responses.events

/-- A later state of a session that has only read, with the bytes that are left. -/
structure Reads (before after : Session) (bytes : List Byte) : Prop where
  reading : after.Reading
  errno : Undisturbed before.errno after.errno
  responses : after.responses = before.responses
  view : after.view = { before.view with bytes }

/-- A later state of a session, with the given view. -/
structure Follows (before after : Session) (view : View) : Prop where
  healthy : after.Healthy
  errno : Undisturbed before.errno after.errno
  view : after.view = view

variable {place : SessionPlace} {session : Session}

theorem Follows.congr {before after : Session} {view view' : View}
    (follows : Follows before after view)
    (same : view = view') : Follows before after view' :=
  same ▸ follows

theorem Follows.trans {first second third : Session} {view view' : View}
    (one : Follows first second view) (two : Follows second third view') :
    Follows first third view' :=
  ⟨two.healthy, one.errno.trans two.errno, two.view⟩

theorem Reads.bytes {before after : Session} {rest : List Byte} (reads : Reads before after rest) :
    after.requests.bytes = rest :=
  congrArg View.bytes reads.view

theorem Reads.trans {first second third : Session} {middle rest : List Byte}
    (one : Reads first second middle) (two : Reads second third rest) : Reads first third rest :=
  ⟨two.reading, one.errno.trans two.errno, two.responses.trans one.responses,
    by rw [two.view, one.view]⟩

/-- On a healthy session reading is a step like the others. -/
theorem Reads.follows {before after : Session} {rest : List Byte} (reads : Reads before after rest)
    (healthy : before.Healthy) : Follows before after { before.view with bytes := rest } :=
  ⟨⟨reads.reading, by rw [reads.responses]; exact healthy.responses⟩, reads.errno, reads.view⟩

/-! ### The steps -/

/-- The opcode is read. -/
theorem round_opcode (place : SessionPlace) (reading : session.Reading) {byte : Byte}
    {rest : List Byte}
    (bytes : session.requests.bytes = byte :: rest) :
    ∃ after, Reads session after rest ∧ after.key = session.key ∧
      session.requestRound place =
        match getCode byte with
        | .subscribe => after.subscribeRound place
        | .unsubscribe => after.unsubscribeRound place
        | .disconnect => after.disconnectRound place
        | .invalid | .connect => .inl after := by
  obtain ⟨events, errno, healthy', undisturbed, read⟩ :=
    readAll_enough reading.requests (show 1 ≤ session.requests.bytes.length by simp [bytes])
      session.errno
  refine ⟨{ session with requests := ⟨rest, events⟩, errno },
    ⟨⟨healthy', reading.key⟩, undisturbed, rfl, rfl⟩, rfl, ?_⟩
  rw [requestRound, read, bytes]
  rfl

/-- A key field that is there is read. -/
theorem readKey_enough (reading : session.Reading)
    (enough : keySize ≤ session.requests.bytes.length) :
    ∃ after, Reads session after (session.requests.bytes.drop keySize) ∧
      after.key = session.requests.bytes.take keySize ∧ session.readKey = (1, after) := by
  obtain ⟨events, errno, healthy', undisturbed, read⟩ :=
    readAll_enough reading.requests enough session.errno
  have taken : (session.requests.bytes.take keySize).length = keySize :=
    List.length_take_of_le enough
  have dropped : session.key.drop keySize = [] := List.drop_of_length_le reading.key.le
  refine ⟨{ session with
      requests := ⟨session.requests.bytes.drop keySize, events⟩, errno,
      key := session.requests.bytes.take keySize },
    ⟨⟨healthy', taken⟩, undisturbed, rfl, rfl⟩, rfl, ?_⟩
  rw [readKey, read]
  simp only [taken, dropped, List.append_nil]

/-- A key field that is cut short overwrites the front of the buffer, and is no error. -/
theorem readKey_short (reading : session.Reading)
    (short : session.requests.bytes.length < keySize) :
    ∃ after, Reads session after [] ∧ session.readKey = (0, after) := by
  obtain ⟨events, errno, healthy', undisturbed, read⟩ :=
    readAll_short reading.requests short session.errno
  have length : (session.requests.bytes ++
      session.key.drop session.requests.bytes.length).length = keySize := by
    rw [List.length_append, List.length_drop, reading.key]
    omega
  refine ⟨{ session with
      requests := ⟨[], events⟩, errno,
      key := session.requests.bytes ++ session.key.drop session.requests.bytes.length },
    ⟨⟨healthy', length⟩, undisturbed, rfl, rfl⟩, ?_⟩
  rw [readKey, read]

/-- The response is written. -/
theorem respond_healthy (healthy : session.Healthy) (code : Code) (result : Byte)
    (next : Session → Round) :
    ∃ after, Follows session after
        { session.view with sent := session.responses.sent ++ [getCodeString code, result] } ∧
      session.respond code result next = next after := by
  obtain ⟨events, errno, healthy', undisturbed, written⟩ :=
    writeAll_harmless healthy.responses [getCodeString code, result] session.errno
  refine ⟨{ session with
      responses := ⟨session.responses.sent ++ [getCodeString code, result], events⟩, errno },
    ⟨⟨⟨healthy.requests, healthy.key⟩, healthy'⟩, undisturbed, rfl⟩, ?_⟩
  rw [respond, written]
  rfl

/-! ### A request for a key -/

/-- A key request as it stands once its key is read. -/
def performKey (place : SessionPlace) (request : KeyRequest) (complete : Bool) (session : Session) :
    Round :=
  session.perform place (.onKey request (CStr.ofBuffer session.key)) complete
    fun result session => session.respond request.code result .inl

theorem subscribeRound_eq {after : Session} {code : Int} (read : session.readKey = (code, after))
    (good : code ≠ -1) :
    session.subscribeRound place = performKey place .subscribe (code = 1) after := by
  rw [subscribeRound, read]
  exact if_neg fun failed => good failed.1

theorem unsubscribeRound_eq {after : Session} {code : Int} (read : session.readKey = (code, after))
    (good : code ≠ -1) :
    session.unsubscribeRound place = performKey place .unsubscribe (code = 1) after := by
  rw [unsubscribeRound, read]
  exact if_neg good

/-- A request for a key, read and performed. -/
theorem round_request (place : SessionPlace) (reading : session.Reading) (request : KeyRequest)
    {rest : List Byte}
    (bytes : session.requests.bytes = getCodeString request.code :: rest) :
    ∃ opened, Reads session opened rest ∧ opened.key = session.key ∧
      ∀ code after, opened.readKey = (code, after) → code ≠ -1 →
        session.requestRound place = performKey place request (code = 1) after := by
  obtain ⟨opened, reads, key, round⟩ := round_opcode place reading bytes
  refine ⟨opened, reads, key, fun code after read good => ?_⟩
  rw [round, getCode_getCodeString]
  cases request with
  | subscribe => exact subscribeRound_eq read good
  | unsubscribe => exact unsubscribeRound_eq read good

/-- The operation is performed and answered. -/
theorem performKey_ok (healthy : session.Healthy) {request : KeyRequest} {result : Byte}
    {table : HashTable} (complete : Bool)
    (performed : SessionOp.perform place.notifPipeFd
      (.onKey request (CStr.ofBuffer session.key))
      (place.others session.performed.length session.table) = .ok (result, table)) :
    ∃ after, Follows session after { session.view with
        sent := session.responses.sent ++ [getCodeString request.code, result], table,
        performed := session.performed ++ [(.onKey request (CStr.ofBuffer session.key), result)] } ∧
      performKey place request complete session = .inl after := by
  let called : Session := { session with
    table
    performed := session.performed ++ [(.onKey request (CStr.ofBuffer session.key), result)] }
  obtain ⟨after, follows, responded⟩ := respond_healthy
    (⟨⟨healthy.requests, healthy.key⟩, healthy.responses⟩ : called.Healthy) request.code result .inl
  refine ⟨after, ⟨follows.healthy, follows.errno, follows.view⟩, ?_⟩
  rw [performKey, perform, performed]
  exact responded

/-- The operation accesses the table outside its array. -/
theorem performKey_fault {request : KeyRequest} {fault : Fault} (complete : Bool)
    (performed : SessionOp.perform place.notifPipeFd
      (.onKey request (CStr.ofBuffer session.key))
      (place.others session.performed.length session.table) = .error fault) :
    performKey place request complete session = .inr (.fault fault complete session) := by
  rw [performKey, perform, performed]

/-- A request for a key that is there in full. -/
theorem round_onKey (place : SessionPlace) (reading : session.Reading) (request : KeyRequest)
    {rest : List Byte}
    (bytes : session.requests.bytes = getCodeString request.code :: rest)
    (enough : keySize ≤ rest.length) :
    ∃ after, Reads session after (rest.drop keySize) ∧ after.key = rest.take keySize ∧
      session.requestRound place = performKey place request true after := by
  obtain ⟨opened, reads, _, round⟩ := round_request place reading request bytes
  obtain ⟨after, readsKey, key, read⟩ := readKey_enough reads.reading (reads.bytes ▸ enough)
  rw [reads.bytes] at readsKey key
  exact ⟨after, reads.trans readsKey, key, round 1 after read (by decide)⟩

/-- **A request for a key** is performed and answered. -/
theorem round_performed (healthy : session.Healthy) (request : KeyRequest) {rest : List Byte}
    (bytes : session.requests.bytes = getCodeString request.code :: rest)
    (enough : keySize ≤ rest.length) {result : Byte} {table : HashTable}
    (called : SessionOp.perform place.notifPipeFd
      (.onKey request (CStr.ofBuffer (rest.take keySize)))
      (place.others session.performed.length session.table) = .ok (result, table)) :
    ∃ after, Follows session after { session.view with
        bytes := rest.drop keySize
        sent := session.responses.sent ++ [getCodeString request.code, result]
        table := table
        performed := session.performed ++
          [(.onKey request (CStr.ofBuffer (rest.take keySize)), result)] } ∧
      session.requestRound place = .inl after := by
  obtain ⟨opened, reads, key, round⟩ :=
    round_onKey place healthy.toReading request bytes enough
  have follows := reads.follows healthy
  obtain ⟨_, sent, sameTable, _, _, performed⟩ := View.mk.inj follows.view
  rw [← key, ← show opened.performed = session.performed from performed,
    ← show opened.table = session.table from sameTable] at called
  obtain ⟨after, followsCall, done⟩ := performKey_ok follows.healthy true called
  refine ⟨after, follows.trans (followsCall.congr ?_), round.trans done⟩
  rw [follows.view, sent, performed, key]
  rfl

/-- A request for a key that faults. -/
theorem round_faulted (reading : session.Reading) (request : KeyRequest) {rest : List Byte}
    (bytes : session.requests.bytes = getCodeString request.code :: rest)
    (enough : keySize ≤ rest.length) {fault : Fault}
    (called : SessionOp.perform place.notifPipeFd
      (.onKey request (CStr.ofBuffer (rest.take keySize)))
      (place.others session.performed.length session.table) = .error fault) :
    ∃ final, final.key = rest.take keySize ∧
      session.requestRound place = .inr (.fault fault true final) := by
  obtain ⟨opened, reads, key, round⟩ := round_onKey place reading request bytes enough
  obtain ⟨_, _, sameTable, _, _, performed⟩ := View.mk.inj reads.view
  rw [← key, ← show opened.performed = session.performed from performed,
    ← show opened.table = session.table from sameTable] at called
  exact ⟨opened, key, round.trans (performKey_fault true called)⟩

/-- **A request for a key that is cut short** by the end of the bytes is performed all the same. -/
theorem round_truncated (place : SessionPlace) (reading : session.Reading) (request : KeyRequest)
    {rest : List Byte}
    (bytes : session.requests.bytes = getCodeString request.code :: rest)
    (short : rest.length < keySize) :
    ∃ after, Reads session after [] ∧
      session.requestRound place = performKey place request false after := by
  obtain ⟨opened, reads, _, round⟩ := round_request place reading request bytes
  obtain ⟨after, readsKey, read⟩ := readKey_short reads.reading (reads.bytes ▸ short)
  exact ⟨after, reads.trans readsKey, round 0 after read (by decide)⟩

/-! ### The other rounds -/

/-- An opcode that is no request is skipped. -/
theorem round_ignored (place : SessionPlace) (reading : session.Reading) {byte : Byte}
    {rest : List Byte}
    (bytes : session.requests.bytes = byte :: rest)
    (other : getCode byte = .invalid ∨ getCode byte = .connect) :
    ∃ after, Reads session after rest ∧ session.requestRound place = .inl after := by
  obtain ⟨after, reads, _, round⟩ := round_opcode place reading bytes
  refine ⟨after, reads, ?_⟩
  rw [round]
  rcases other with code | code <;> rw [code]

/-- The view a disconnected session is left with. -/
def disconnectedView (place : ServedPlace) (view : View) : View :=
  let called := disconnect place.notifPipeFd (place.others view.performed.length view.table)
  { view with
    sent := view.sent ++ [getCodeString .disconnect, called.1]
    table := called.2
    activeClients := Function.update view.activeClients ⟨place.index, place.inside⟩ ⟨0, 0, 0⟩
    closed := view.closed ++ [place.reqPipeFd, place.notifPipeFd, place.respPipeFd]
    performed := view.performed ++ [(.disconnect, called.1)] }

theorem disconnectRound_healthy (place : ServedPlace) (healthy : session.Healthy) :
    ∃ final, final.view = disconnectedView place session.view ∧
      session.disconnectRound place.toSessionPlace = .inr (.returned final) := by
  let called := disconnect place.notifPipeFd (place.others session.performed.length session.table)
  let cleared : Session := { session with
    table := called.2, performed := session.performed ++ [(.disconnect, called.1)]
    activeClients := Function.update session.activeClients ⟨place.index, place.inside⟩ ⟨0, 0, 0⟩ }
  obtain ⟨answered, follows, responded⟩ := respond_healthy
    (⟨⟨healthy.requests, healthy.key⟩, healthy.responses⟩ : cleared.Healthy) .disconnect called.1
    fun session => .inr (.returned { session with
      closed := session.closed ++ [place.reqPipeFd, place.notifPipeFd, place.respPipeFd] })
  refine ⟨{ answered with
    closed := answered.closed ++ [place.reqPipeFd, place.notifPipeFd, place.respPipeFd] }, ?_, ?_⟩
  · show { answered.view with
      closed := answered.view.closed ++ [place.reqPipeFd, place.notifPipeFd, place.respPipeFd] } = _
    rw [follows.view]
    rfl
  · rw [disconnectRound, perform]
    exact (dif_pos place.inside).trans responded

/-- **`DISCONNECT`** is performed and answered, the client's entry is cleared and its descriptors
are closed, and the session returns. -/
theorem round_disconnect (place : ServedPlace) (healthy : session.Healthy) {rest : List Byte}
    (bytes : session.requests.bytes = getCodeString .disconnect :: rest) :
    ∃ final, final.view = disconnectedView place { session.view with bytes := rest } ∧
      session.requestRound place.toSessionPlace = .inr (.returned final) := by
  obtain ⟨opened, reads, _, round⟩ := round_opcode place.toSessionPlace healthy.toReading bytes
  have follows := reads.follows healthy
  obtain ⟨final, view, returned⟩ := disconnectRound_healthy place follows.healthy
  refine ⟨final, by rw [view, follows.view], ?_⟩
  rw [round, getCode_getCodeString]
  exact returned

/-- At the end of the bytes nothing is done; the session is left only when `errno` is stale. -/
theorem round_end (place : SessionPlace) (reading : session.Reading)
    (bytes : session.requests.bytes = []) :
    ∃ after, Reads session after [] ∧
      session.requestRound place =
        if after.errno = .ebadf then .inr (.returned after) else .inl after := by
  obtain ⟨events, errno, healthy', undisturbed, read⟩ :=
    readAll_short reading.requests (show session.requests.bytes.length < 1 by simp [bytes])
      session.errno
  refine ⟨{ session with requests := ⟨[], events⟩, errno },
    ⟨⟨healthy', reading.key⟩, undisturbed, rfl, rfl⟩, ?_⟩
  rw [requestRound, read, bytes]
  rfl

end Session

end Kvs.Server
