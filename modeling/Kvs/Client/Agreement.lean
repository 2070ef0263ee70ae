/-
**The client's calls and the server's session.**

An `ApiCall` is a call of `kvs_subscribe` or `kvs_unsubscribe`. `Agrees` closes the loop between a
client that makes some calls and then `kvs_disconnect` and a session: the session consumes the bytes
the client writes, and the client reads the bytes the session sends. It asks that the operations
performed are the ones called for, and that every response starts with its call's opcode.

What the client writes does not depend on what it reads, so the session is followed first
(`agreement_served`) and the responses are dealt out to the calls after that (`runCalls_returned`).
-/

import Kvs.Client.Api
import Kvs.Session.Framing

namespace Kvs.Client

open WhileLoop Server

/-! ### Calls -/

/-- A key of at most `39` characters that starts with a letter or digit. -/
structure ApiKey where
  key : CStr
  short : key.length < maxStringSize
  alnum : startsAlnum key

/-- A call for a key. -/
inductive ApiCall where
  | subscribe (key : ApiKey)
  | unsubscribe (key : ApiKey)

namespace ApiCall

/-- Make the call. -/
def make : ApiCall → Connection → Int × Connection
  | subscribe key => kvsSubscribe key.key
  | unsubscribe key => kvsUnsubscribe key.key

/-- The operation the call is named after. -/
def op : ApiCall → SessionOp
  | subscribe key => .onKey .subscribe key.key
  | unsubscribe key => .onKey .unsubscribe key.key

/-- The call's key. -/
def key : ApiCall → ApiKey
  | subscribe key => key
  | unsubscribe key => key

end ApiCall

/-- The calls in order, and `kvs_disconnect`. -/
def runCalls : List ApiCall → Connection → Connection
  | [], client => (kvsDisconnect client).2
  | call :: calls, client => runCalls calls (call.make client).2

/-! ### What the client writes -/

/-- The field `strncpy` fills ends in a NUL. -/
theorem strncpy_terminated (key : ApiKey) :
    strncpy (maxStringSize + 1) key.key =
      key.key.bytes ++ nul :: List.replicate (maxStringSize - key.key.length) nul := by
  have short : key.key.bytes.length < maxStringSize := key.short
  have rest : maxStringSize + 1 - key.key.length = maxStringSize - key.key.length + 1 :=
    Nat.succ_sub key.short.le
  rw [strncpy, List.take_of_length_le (by omega), rest, List.replicate_succ]

/-- The request both calls for a key write. -/
def sentFrame (key : ApiKey) : KeyFrame where
  request := .subscribe
  field := strncpy (maxStringSize + 1) key.key
  length := by
    have short : key.key.bytes.length < maxStringSize := key.short
    have same : key.key.length = key.key.bytes.length := rfl
    rw [strncpy_terminated, List.length_append, List.length_cons, List.length_replicate, keySize]
    omega
  terminated := by
    rw [strncpy_terminated]
    exact List.mem_append_right _ List.mem_cons_self
  alnum := by
    rw [strncpy_terminated, CStr.ofBuffer_terminated]
    exact key.alnum

/-- The request read back. -/
theorem sentFrame_keyOp (key : ApiKey) : (sentFrame key).keyOp = ⟨.subscribe, key.key⟩ := by
  show (⟨.subscribe, CStr.ofBuffer (strncpy (maxStringSize + 1) key.key)⟩ : KeyOp) = _
  rw [strncpy_terminated, CStr.ofBuffer_terminated]

theorem make_eq (call : ApiCall) (client : Connection) :
    call.make client = request (sentFrame call.key).bytes client := by
  cases call <;> rfl

variable {client : Connection}

/-- **What the client writes** is a request per call and a `DISCONNECT`, whatever it reads. -/
theorem runCalls_sent (healthy : client.Healthy) (calls : List ApiCall) :
    (runCalls calls client).requests.sent = client.requests.sent ++
      (calls.flatMap fun call => (sentFrame call.key).bytes) ++ [getCodeString .disconnect] := by
  induction calls generalizing client with
  | nil => rw [runCalls, kvsDisconnect, (request_healthy healthy _).2.1, List.flatMap_nil,
      List.append_nil]
  | cons call calls ih =>
    obtain ⟨healthy', sent, _⟩ := request_healthy healthy (sentFrame call.key).bytes
    rw [runCalls, make_eq, ih healthy', sent, List.flatMap_cons, List.append_assoc,
      List.append_assoc, List.append_assoc, List.append_assoc]

/-- **What the client reads**: when there is a response of two bytes for each call, each call
returns its own. -/
theorem runCalls_returned (healthy : client.Healthy) (calls : List ApiCall)
    {results : List (SessionOp × Byte)} (each : results.length = calls.length + 1)
    (bytes : client.responses.bytes = results.flatMap response) :
    (runCalls calls client).returned = client.returned ++ results.map response := by
  induction calls generalizing client results with
  | nil =>
    obtain ⟨result, rfl⟩ := List.length_eq_one_iff.mp each
    rw [List.flatMap_singleton] at bytes
    obtain ⟨_, _, received⟩ := request_healthy healthy [getCodeString .disconnect]
    rw [runCalls, kvsDisconnect, (received (by rw [bytes]; exact le_rfl)).2, bytes]
    rfl
  | cons call calls ih =>
    obtain ⟨result, results, rfl⟩ := List.exists_cons_of_length_eq_add_one each
    obtain ⟨healthy', _, received⟩ := request_healthy healthy (sentFrame call.key).bytes
    rw [List.flatMap_cons] at bytes
    obtain ⟨rest, returned⟩ := received (by
      rw [bytes, List.length_append]
      exact Nat.le_add_right 2 _)
    rw [runCalls, make_eq, ih healthy' (Nat.succ.inj each) (by rw [rest, bytes]; rfl), returned,
      bytes, List.append_assoc]
    rfl

/-! ### Agreement -/

/-- What the calls on a client's pipes will do. -/
structure ClientStart where
  /-- The calls of `write` on the request pipe. -/
  sends : List Delivery
  /-- The calls of `read` on the response pipe. -/
  arrivals : List Delivery
  errno : Errno

/-- A connected client that is to read the given responses. -/
def ClientStart.connection (start : ClientStart) (responses : List Byte) : Connection where
  requests := ⟨[], start.sends.map Subtype.val⟩
  responses := ⟨responses, start.arrivals.map Subtype.val⟩
  errno := start.errno
  returned := []

theorem ClientStart.healthy (start : ClientStart) (responses : List Byte) :
    (start.connection responses).Healthy :=
  ⟨healthy_deliveries _, healthy_deliveries _⟩

/-- The operations called for, with the `DISCONNECT` at the end. -/
def calledOps (calls : List ApiCall) : List SessionOp := calls.map ApiCall.op ++ [.disconnect]

/-- The session performs the operations called for, and the response to each call starts with the
operation's opcode. -/
def Agrees (place : ServedPlace) (start : SessionStart) (clientStart : ClientStart)
    (calls : List ApiCall) : Prop :=
  ∃ final : Session,
    let client := runCalls calls (clientStart.connection final.responses.sent)
    Returns (Session.requestRound place.toSessionPlace) (start.session client.requests.sent)
        (.returned final) ∧
      final.performed.map Prod.fst = calledOps calls ∧
      client.returned.map (·.headD nul) =
        (calledOps calls).map fun op => getCodeString op.code

section Loop

variable (place : ServedPlace) (start : SessionStart) (clientStart : ClientStart)
  (calls : List ApiCall)

/-- The operations the server finds in what the client writes. -/
def sentOps (calls : List ApiCall) : List SessionOp :=
  calls.map (fun call => .onKey .subscribe call.key.key) ++ [.disconnect]

/-- The session on what the client writes. -/
theorem agreement_served (responses : List Byte) :
    ∃ results final,
      Returns (Session.requestRound place.toSessionPlace)
        (start.session (runCalls calls (clientStart.connection responses)).requests.sent)
        (.returned final) ∧
      final.performed = results ∧ results.map Prod.fst = sentOps calls ∧
      final.responses.sent = results.flatMap response := by
  have stream := requestStream_frames (calls.map fun call => sentFrame call.key) []
  have written : (runCalls calls (clientStart.connection responses)).requests.sent =
      (calls.map fun call => sentFrame call.key).flatMap KeyFrame.bytes ++
        [getCodeString .disconnect] := by
    rw [runCalls_sent (clientStart.healthy responses), List.flatMap_map]
    rfl
  rw [← written] at stream
  have alnum : ∀ keyOp ∈ (calls.map fun call => sentFrame call.key).map KeyFrame.keyOp,
      startsAlnum keyOp.key := by
    intro keyOp member
    obtain ⟨frame, _, rfl⟩ := List.mem_map.mp member
    exact frame.alnum
  obtain ⟨results, final, returns, _, asked, performed, sent, _⟩ :=
    session_disconnects place start stream alnum
  refine ⟨results, final, returns, performed, ?_, sent⟩
  simp only [asked, sentOps, List.map_map, Function.comp_def, sentFrame_keyOp, KeyOp.op]

theorem agrees_iff_ops :
    Agrees place start clientStart calls ↔ sentOps calls = calledOps calls := by
  constructor
  · rintro ⟨final, returns, performed, _⟩
    obtain ⟨results, final', returns', performed', asked, _⟩ :=
      agreement_served place start clientStart calls final.responses.sent
    cases returns.unique returns'
    rw [← asked, ← performed', performed]
  · intro same
    obtain ⟨results, final, returns, performed, asked, sent⟩ :=
      agreement_served place start clientStart calls []
    -- what is written is the same when the session's responses are read
    have written : (runCalls calls (clientStart.connection final.responses.sent)).requests.sent =
        (runCalls calls (clientStart.connection [])).requests.sent := by
      rw [runCalls_sent (clientStart.healthy _), runCalls_sent (clientStart.healthy _)]
      rfl
    have each : results.length = calls.length + 1 := by
      have lengths := congrArg List.length asked
      rwa [List.length_map, sentOps, List.length_append, List.length_map] at lengths
    refine ⟨final, by rw [written]; exact returns, by rw [performed, asked, same], ?_⟩
    rw [runCalls_returned (clientStart.healthy _) calls each sent, ← same, ← asked, List.map_map]
    show (results.map response).map _ = _
    rw [List.map_map]
    rfl

/-- **The client and the server agree** if and only if no call is a `kvs_unsubscribe`. -/
theorem client_server_agree_iff :
    Agrees place start clientStart calls ↔ ∀ key, ApiCall.unsubscribe key ∉ calls := by
  rw [agrees_iff_ops, sentOps, calledOps, List.append_left_inj, List.map_inj_left]
  constructor
  · intro same key member
    cases same _ member
  · intro none call member
    cases call with
    | subscribe key => rfl
    | unsubscribe key => exact absurd member (none key)

end Loop

/-- `kvs_unsubscribe("a")` subscribes to `a`. -/
theorem unsubscribe_disagrees :
    ¬ Agrees freshPlace freshStart ⟨[], [], .zero⟩
      [.unsubscribe ⟨⟨ascii ['a'], by decide⟩, by decide, by decide⟩] := by
  rw [agrees_iff_ops]
  decide

end Kvs.Client
