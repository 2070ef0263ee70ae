/-
**A session on a stream of bytes.**

`requestStream` reads a stream as a session takes it for requests: an opcode and, for a request for
a key, a field of `41` bytes. Bytes that are no request's opcode are passed over. It stops at
`DISCONNECT`, at the end of the stream, or at a request whose field is cut short (`Tail`).

`session_serves` follows a session along its requests for keys, as long as the keys have a bucket;
`session_faults` is what happens at the first key that has none. Neither follows the session beyond
the tail.
-/

import Kvs.Session.Rounds
import Kvs.Store.Buckets

namespace Kvs.Server

open WhileLoop

/-! ### Requests in a stream -/

/-- A request for a key. -/
structure KeyOp where
  request : KeyRequest
  key : CStr
deriving DecidableEq

/-- The store operation requested. -/
def KeyOp.op (keyOp : KeyOp) : SessionOp := .onKey keyOp.request keyOp.key

/-- How the requests of a stream end. -/
inductive Tail where
  /-- The stream ends between two requests. -/
  | atBoundary
  /-- The stream ends within the field of a request. -/
  | truncated (request : KeyRequest) (field : List Byte)
  /-- A `DISCONNECT`, with the bytes behind it. -/
  | disconnected (rest : List Byte)
deriving DecidableEq

/-- The bytes of a stream from its tail on. -/
def Tail.bytes : Tail → List Byte
  | .atBoundary => []
  | .truncated request field => getCodeString request.code :: field
  | .disconnected rest => getCodeString .disconnect :: rest

/-- What an opcode asks for. -/
inductive Opcode where
  | onKey (request : KeyRequest)
  | disconnect
  | ignored
deriving DecidableEq

/-- The `switch` of a round on an opcode. -/
def opcodeOf (byte : Byte) : Opcode :=
  match getCode byte with
  | .subscribe => .onKey .subscribe
  | .unsubscribe => .onKey .unsubscribe
  | .disconnect => .disconnect
  | .invalid | .connect => .ignored

/-- The requests for keys in a stream, and its tail. -/
def requestStream : List Byte → List KeyOp × Tail
  | [] => ([], .atBoundary)
  | byte :: rest =>
    match opcodeOf byte with
    | .onKey request =>
      if rest.length < keySize then ([], .truncated request rest)
      else
        let (ops, tail) := requestStream (rest.drop keySize)
        (⟨request, CStr.ofBuffer (rest.take keySize)⟩ :: ops, tail)
    | .disconnect => ([], .disconnected rest)
    | .ignored => requestStream rest
termination_by stream => stream.length
decreasing_by all_goals simp

theorem opcodeOf_code (byte : Byte) :
    match opcodeOf byte with
    | .onKey request => byte = getCodeString request.code
    | .disconnect => byte = getCodeString .disconnect
    | .ignored => getCode byte = .invalid ∨ getCode byte = .connect := by
  have sent : ∀ code, getCode byte = code → code ≠ .invalid → byte = getCodeString code := by
    intro code equal valid
    rw [getCode] at equal
    split_ifs at equal with one two three four <;> subst equal
    · exact one
    · exact two
    · exact three
    · exact four
    · exact absurd rfl valid
  rw [opcodeOf]
  cases code : getCode byte with
  | subscribe => exact sent _ code (by decide)
  | unsubscribe => exact sent _ code (by decide)
  | disconnect => exact sent _ code (by decide)
  | invalid => exact Or.inl rfl
  | connect => exact Or.inr rfl

section Equations

variable {byte : Byte} {rest : List Byte} {request : KeyRequest}

@[simp] theorem requestStream_nil : requestStream [] = ([], .atBoundary) := by
  rw [requestStream]

theorem requestStream_onKey (opcode : opcodeOf byte = .onKey request)
    (enough : keySize ≤ rest.length) :
    requestStream (byte :: rest) =
      (⟨request, CStr.ofBuffer (rest.take keySize)⟩ :: (requestStream (rest.drop keySize)).1,
        (requestStream (rest.drop keySize)).2) := by
  rw [requestStream, opcode]
  exact if_neg (not_lt.mpr enough)

theorem requestStream_field (opcode : opcodeOf byte = .onKey request) {field : List Byte}
    (length : field.length = keySize) :
    requestStream (byte :: (field ++ rest)) =
      (⟨request, CStr.ofBuffer field⟩ :: (requestStream rest).1, (requestStream rest).2) := by
  rw [requestStream_onKey opcode (by rw [List.length_append, length]; omega),
    List.take_left' length, List.drop_left' length]

theorem requestStream_truncated (opcode : opcodeOf byte = .onKey request)
    (short : rest.length < keySize) :
    requestStream (byte :: rest) = ([], .truncated request rest) := by
  rw [requestStream, opcode]
  exact if_pos short

theorem requestStream_disconnect (opcode : opcodeOf byte = .disconnect) :
    requestStream (byte :: rest) = ([], .disconnected rest) := by
  rw [requestStream, opcode]

theorem requestStream_ignored (opcode : opcodeOf byte = .ignored) :
    requestStream (byte :: rest) = requestStream rest := by
  rw [requestStream, opcode]

end Equations

theorem opcodeOf_request (request : KeyRequest) :
    opcodeOf (getCodeString request.code) = .onKey request := by
  cases request <;> decide

/-- **The rule of streams**, by what stands at their front. -/
theorem stream_induction {motive : List Byte → Prop} (nil : motive [])
    (onKey : ∀ (request : KeyRequest) (rest : List Byte), keySize ≤ rest.length →
      motive (rest.drop keySize) → motive (getCodeString request.code :: rest))
    (truncated : ∀ (request : KeyRequest) (field : List Byte), field.length < keySize →
      motive (getCodeString request.code :: field))
    (disconnect : ∀ rest : List Byte, motive (getCodeString .disconnect :: rest))
    (ignored : ∀ (byte : Byte) (rest : List Byte), opcodeOf byte = .ignored → motive rest →
      motive (byte :: rest))
    (stream : List Byte) : motive stream := by
  induction size : stream.length using Nat.strong_induction_on generalizing stream with
  | _ size ih =>
    cases stream with
    | nil => exact nil
    | cons byte rest =>
      have code := opcodeOf_code byte
      cases opcode : opcodeOf byte with
      | onKey request =>
        rw [opcode] at code
        subst code
        by_cases enough : keySize ≤ rest.length
        · exact onKey request rest enough
            (ih (rest.drop keySize).length (by rw [← size]; simp) (rest.drop keySize) rfl)
        · exact truncated request rest (not_le.mp enough)
      | disconnect =>
        rw [opcode] at code
        subst code
        exact disconnect rest
      | ignored => exact ignored byte rest opcode (ih rest.length (by rw [← size]; simp) rest rfl)

/-! ### Operations, one after another -/

/-- Operations performed one after another, each on the table as the other threads leave it, with
their results; `calls` counts the calls made before. -/
inductive Performed (place : SessionPlace) :
    ℕ → HashTable → List (SessionOp × Byte) → HashTable → Prop where
  | nil {calls : ℕ} {table : HashTable} : Performed place calls table [] table
  | cons {calls : ℕ} {table middle final : HashTable} {op : SessionOp} {result : Byte}
      {results : List (SessionOp × Byte)}
      (called : op.perform place.notifPipeFd (place.others calls table) = .ok (result, middle))
      (later : Performed place (calls + 1) middle results final) :
      Performed place calls table ((op, result) :: results) final

theorem Performed.snoc {place : SessionPlace} {calls : ℕ} {table middle final : HashTable}
    {results : List (SessionOp × Byte)} {op : SessionOp} {result : Byte}
    (earlier : Performed place calls table results middle)
    (called : op.perform place.notifPipeFd (place.others (calls + results.length) middle) =
      .ok (result, final)) :
    Performed place calls table (results ++ [(op, result)]) final := by
  induction earlier with
  | nil => exact .cons called .nil
  | cons first _ ih =>
    refine .cons first (ih ?_)
    rwa [List.length_cons, ← Nat.add_assoc, Nat.add_right_comm] at called

/-- The response to an operation. -/
def response (performed : SessionOp × Byte) : List Byte :=
  [getCodeString performed.1.code, performed.2]

/-- A request for a key accesses the key's bucket. -/
theorem accesses_perform (fd : Fd) (keyOp : KeyOp) (table : HashTable) :
    Accesses [keyOp.key] (keyOp.op.perform fd table) := by
  obtain ⟨request, key⟩ := keyOp
  cases request with
  | subscribe => exact accesses_subscribe key fd table
  | unsubscribe => exact accesses_unsubscribe key fd table

/-- A key with a bucket is subscribed and unsubscribed without a fault. -/
theorem perform_onKey (fd : Fd) (request : KeyRequest) {key : CStr} (alnum : startsAlnum key)
    (table : HashTable) :
    ∃ result table', (SessionOp.onKey request key).perform fd table = .ok (result, table') := by
  obtain ⟨⟨result, table'⟩, called⟩ :=
    (accesses_perform fd ⟨request, key⟩ table).ok (by simpa using alnum)
  exact ⟨result, table', called⟩

/-- A key without one makes the first access to the table fault. -/
theorem perform_fault (fd : Fd) (request : KeyRequest) {key : CStr} (other : ¬ startsAlnum key)
    (table : HashTable) :
    (SessionOp.onKey request key).perform fd table = .error (.bucket (-1)) :=
  (accesses_perform fd ⟨request, key⟩ table).fault (List.mem_singleton_self key) other

/-! ### Along the requests for keys -/

namespace Session

variable {place : SessionPlace} {session : Session}

/-- The session performs and answers the requests for keys, and comes to the tail. -/
def Serves (place : SessionPlace) (session : Session) (ops : List KeyOp) (tail : Tail) : Prop :=
  ∃ results table after,
    Performed place session.performed.length session.table results table ∧
    results.map Prod.fst = ops.map KeyOp.op ∧
    Reaches (requestRound place) session after ∧
    Follows session after { session.view with
      bytes := tail.bytes
      sent := session.responses.sent ++ results.flatMap response
      table := table
      performed := session.performed ++ results }

theorem serves_nil (healthy : session.Healthy) {tail : Tail}
    (bytes : session.requests.bytes = tail.bytes) : Serves place session [] tail := by
  refine ⟨[], session.table, session, .nil, rfl, Relation.ReflTransGen.refl, healthy,
    Undisturbed.refl _, ?_⟩
  simp only [List.flatMap_nil, List.append_nil, ← bytes]
  rfl

/-- A round that only reads. -/
theorem serves_of_ignored {next : Session} {rest : List Byte} {ops : List KeyOp} {tail : Tail}
    (round : session.requestRound place = .inl next)
    (follows : Follows session next { session.view with bytes := rest })
    (later : Serves place next ops tail) : Serves place session ops tail := by
  obtain ⟨results, table, after, performed, asked, reaches, followsLater⟩ := later
  obtain ⟨_, sent, sameTable, clients, closed, samePerformed⟩ := View.mk.inj follows.view
  refine ⟨results, table, after, ?_, asked, .head round reaches, follows.trans
    (followsLater.congr ?_)⟩
  · rw [show session.performed = next.performed from samePerformed.symm,
      show session.table = next.table from sameTable.symm]
    exact performed
  · rw [follows.view, sent, samePerformed]
    rfl

/-- A round that performs a request for a key. -/
theorem serves_of_onKey (keyOp : KeyOp) {next : Session} {rest : List Byte} {ops : List KeyOp}
    {tail : Tail} {result : Byte} {table : HashTable}
    (called : keyOp.op.perform place.notifPipeFd
      (place.others session.performed.length session.table) = .ok (result, table))
    (round : session.requestRound place = .inl next)
    (follows : Follows session next { session.view with
      bytes := rest, sent := session.responses.sent ++ response (keyOp.op, result), table,
      performed := session.performed ++ [(keyOp.op, result)] })
    (later : Serves place next ops tail) : Serves place session (keyOp :: ops) tail := by
  obtain ⟨results, table', after, performed, asked, reaches, followsLater⟩ := later
  obtain ⟨_, sent, sameTable, clients, closed, samePerformed⟩ := View.mk.inj follows.view
  refine ⟨(keyOp.op, result) :: results, table', after, .cons called ?_, ?_, .head round reaches,
    follows.trans (followsLater.congr ?_)⟩
  · rw [samePerformed, sameTable, List.length_append, List.length_singleton] at performed
    exact performed
  · rw [List.map_cons, List.map_cons, asked]
  · rw [follows.view, sent, samePerformed]
    simp only [List.append_assoc, List.flatMap_cons, List.singleton_append]

theorem serves_requestStream (place : SessionPlace) (stream : List Byte) :
    ∀ session : Session, session.Healthy → session.requests.bytes = stream →
      (∀ keyOp ∈ (requestStream stream).1, startsAlnum keyOp.key) →
      Serves place session (requestStream stream).1 (requestStream stream).2 := by
  induction stream using stream_induction with
  | nil =>
    intro session healthy bytes _
    rw [requestStream_nil]
    exact serves_nil healthy bytes
  | onKey request rest enough ih =>
    intro session healthy bytes alnum
    rw [requestStream_onKey (opcodeOf_request request) enough] at alnum ⊢
    obtain ⟨result, table, called⟩ := perform_onKey place.notifPipeFd request
      (alnum _ List.mem_cons_self) (place.others session.performed.length session.table)
    obtain ⟨next, follows, round⟩ := round_performed healthy request bytes enough called
    exact serves_of_onKey ⟨request, CStr.ofBuffer (rest.take keySize)⟩ called round follows
      (ih next follows.healthy (congrArg View.bytes follows.view)
        fun keyOp member => alnum keyOp (List.mem_cons_of_mem _ member))
  | truncated request field short =>
    intro session healthy bytes _
    rw [requestStream_truncated (opcodeOf_request request) short]
    exact serves_nil healthy bytes
  | disconnect rest =>
    intro session healthy bytes _
    rw [requestStream_disconnect (by decide)]
    exact serves_nil healthy bytes
  | ignored byte rest opcode ih =>
    intro session healthy bytes alnum
    have code := opcodeOf_code byte
    rw [opcode] at code
    obtain ⟨next, reads, round⟩ := round_ignored place healthy.toReading bytes code
    have follows := reads.follows healthy
    rw [requestStream_ignored opcode] at alnum ⊢
    exact serves_of_ignored round follows (ih next follows.healthy reads.bytes alnum)

/-- **The requests for keys are performed and answered in order**, as long as their keys have a
bucket; the session then stands at the tail of the stream. -/
theorem session_serves (place : SessionPlace) (healthy : session.Healthy) {ops : List KeyOp}
    {tail : Tail}
    (stream : requestStream session.requests.bytes = (ops, tail))
    (alnum : ∀ keyOp ∈ ops, startsAlnum keyOp.key) : Serves place session ops tail := by
  have served := serves_requestStream place _ session healthy rfl (by rw [stream]; exact alnum)
  rwa [stream] at served

/-- The first key without a bucket faults a session on the stream. -/
theorem requestStream_faults (place : SessionPlace) {keyOp : KeyOp} (stream : List Byte) :
    ∀ session : Session, session.Healthy → session.requests.bytes = stream →
      (requestStream stream).1.find? (fun keyOp => ¬ startsAlnum keyOp.key) = some keyOp →
      ∃ final, CStr.ofBuffer final.key = keyOp.key ∧ final.key.length = keySize ∧
        Returns (requestRound place) session (.fault (.bucket (-1)) true final) := by
  induction stream using stream_induction with
  | nil =>
    intro session _ _ first
    rw [requestStream_nil] at first
    cases first
  | onKey request rest enough ih =>
    intro session healthy bytes first
    rw [requestStream_onKey (opcodeOf_request request) enough, List.find?_cons] at first
    by_cases alnum : startsAlnum (CStr.ofBuffer (rest.take keySize))
    · obtain ⟨result, table, called⟩ := perform_onKey place.notifPipeFd request alnum
        (place.others session.performed.length session.table)
      obtain ⟨next, follows, round⟩ := round_performed healthy request bytes enough called
      simp only [alnum, not_true_eq_false, decide_false] at first
      obtain ⟨final, key, length, returns⟩ :=
        ih next follows.healthy (congrArg View.bytes follows.view) first
      exact ⟨final, key, length, (reaches_returns (.single round)).mpr returns⟩
    · obtain ⟨final, key, round⟩ := round_faulted healthy.toReading request bytes enough
        (perform_fault place.notifPipeFd request alnum _)
      simp only [alnum, not_false_eq_true, decide_true] at first
      cases first
      exact ⟨final, by rw [key], by rw [key, List.length_take_of_le enough],
        returns_of_inr round⟩
  | truncated request field short =>
    intro session _ _ first
    rw [requestStream_truncated (opcodeOf_request request) short] at first
    cases first
  | disconnect rest =>
    intro session _ _ first
    rw [requestStream_disconnect (by decide)] at first
    cases first
  | ignored byte rest opcode ih =>
    intro session healthy bytes first
    have code := opcodeOf_code byte
    rw [opcode] at code
    obtain ⟨next, reads, round⟩ := round_ignored place healthy.toReading bytes code
    rw [requestStream_ignored opcode] at first
    obtain ⟨final, key, length, returns⟩ :=
      ih next (reads.follows healthy).healthy reads.bytes first
    exact ⟨final, key, length, (reaches_returns (.single round)).mpr returns⟩

/-- **The first key without a bucket** faults the session. -/
theorem session_faults (place : SessionPlace) (healthy : session.Healthy) {keyOp : KeyOp}
    (first : (requestStream session.requests.bytes).1.find? (fun keyOp => ¬ startsAlnum keyOp.key) =
      some keyOp) :
    ∃ final, CStr.ofBuffer final.key = keyOp.key ∧ final.key.length = keySize ∧
      Returns (requestRound place) session (.fault (.bucket (-1)) true final) :=
  requestStream_faults place _ session healthy rfl first

end Session

end Kvs.Server
