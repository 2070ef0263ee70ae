/-
**Session framing.**

A client that sends requests for keys and then `DISCONNECT` is served request by request, however
its bytes arrive: `session_disconnects` says so of any stream, `session_framing` of the frames a
client sends.
-/

import Kvs.Session.Stream

namespace Kvs.Server

open WhileLoop

/-- How a session starts whose responses go through: what the calls on its pipes will do, and what
it finds. The key buffer is not initialised. -/
structure SessionStart where
  /-- The calls of `read` on the request pipe. -/
  deliveries : List Delivery
  /-- The calls of `write` on the response pipe. -/
  answers : List Delivery
  errno : Errno
  key : List Byte
  keyLength : key.length = keySize
  table : HashTable
  activeClients : Fin maxClients → ActiveClient

namespace SessionStart

/-- The session on a stream of bytes. -/
def session (start : SessionStart) (stream : List Byte) : Session where
  requests := ⟨stream, start.deliveries.map Subtype.val⟩
  responses := ⟨[], start.answers.map Subtype.val⟩
  errno := start.errno
  key := start.key
  table := start.table
  activeClients := start.activeClients
  closed := []
  performed := []

theorem healthy (start : SessionStart) (stream : List Byte) : (start.session stream).Healthy :=
  ⟨⟨healthy_deliveries _, start.keyLength⟩, healthy_deliveries _⟩

end SessionStart

/-- A first client, alone with the server. -/
def freshPlace : ServedPlace where
  reqPipeFd := 5
  respPipeFd := 6
  notifPipeFd := 7
  index := 0
  others := fun _ table => table
  inside := by decide

/-- An empty table, a zeroed key buffer, and calls that move all they can. -/
def freshStart : SessionStart where
  deliveries := []
  answers := []
  errno := .zero
  key := List.replicate keySize nul
  keyLength := List.length_replicate
  table := createHashTable
  activeClients := fun _ => ⟨0, 0, 0⟩

/-! ### Frames -/

/-- A complete request for a key. -/
structure KeyFrame where
  request : KeyRequest
  field : List Byte
  length : field.length = keySize
  terminated : nul ∈ field
  alnum : startsAlnum (CStr.ofBuffer field)

namespace KeyFrame

/-- The bytes on the pipe. -/
def bytes (frame : KeyFrame) : List Byte := getCodeString frame.request.code :: frame.field

/-- The request it makes. -/
def keyOp (frame : KeyFrame) : KeyOp := ⟨frame.request, CStr.ofBuffer frame.field⟩

end KeyFrame

/-- The stream of complete requests that a `DISCONNECT` ends. -/
theorem requestStream_frames (frames : List KeyFrame) (behind : List Byte) :
    requestStream (frames.flatMap KeyFrame.bytes ++ getCodeString .disconnect :: behind) =
      (frames.map KeyFrame.keyOp, .disconnected behind) := by
  induction frames with
  | nil => exact requestStream_disconnect (by decide)
  | cons frame frames ih =>
    rw [List.flatMap_cons, KeyFrame.bytes, List.cons_append, List.cons_append, List.append_assoc,
      requestStream_field (opcodeOf_request frame.request) frame.length, ih]
    rfl

/-- **A stream that a `DISCONNECT` ends** is served to its end: its requests are performed and
answered, and the function returns with the bytes behind the `DISCONNECT` unread. -/
theorem session_disconnects (place : ServedPlace) (start : SessionStart) {stream behind : List Byte}
    {ops : List KeyOp} (parsed : requestStream stream = (ops, .disconnected behind))
    (alnum : ∀ keyOp ∈ ops, startsAlnum keyOp.key) :
    ∃ results final,
      Returns (Session.requestRound place.toSessionPlace) (start.session stream) (.returned final) ∧
      Performed place.toSessionPlace 0 start.table results final.table ∧
      results.map Prod.fst = ops.map KeyOp.op ++ [.disconnect] ∧
      final.performed = results ∧
      final.responses.sent = results.flatMap response ∧
      final.requests.bytes = behind := by
  obtain ⟨results, table, after, performed, asked, reaches, follows⟩ :=
    Session.session_serves place.toSessionPlace (start.healthy stream) parsed alnum
  obtain ⟨final, view, round⟩ := Session.round_disconnect place follows.healthy
    (congrArg View.bytes follows.view)
  rw [follows.view] at view
  have served : Performed place.toSessionPlace 0 start.table results table := performed
  let called := disconnect place.notifPipeFd (place.others results.length table)
  refine ⟨results ++ [(.disconnect, called.1)], final,
    (reaches_returns reaches).mpr (returns_of_inr round), ?_, ?_, ?_, ?_, ?_⟩
  · have tables : final.table = called.2 := congrArg View.table view
    rw [tables]
    exact served.snoc (by rw [Nat.zero_add]; rfl)
  · rw [List.map_append, asked]
    rfl
  · exact congrArg View.performed view
  · have sent : final.responses.sent = results.flatMap response ++
        [getCodeString .disconnect, called.1] := congrArg View.sent view
    rw [sent, List.flatMap_append, List.flatMap_singleton]
    rfl
  · exact congrArg View.bytes view

/-- **Session framing.** The operations of the frames are performed in order and answered by one
response each, nothing behind the `DISCONNECT` is read, and the function returns. -/
theorem session_framing (place : ServedPlace) (start : SessionStart) (frames : List KeyFrame)
    (behind : List Byte) :
    ∃ results final,
      Returns (Session.requestRound place.toSessionPlace)
        (start.session (frames.flatMap KeyFrame.bytes ++ getCodeString .disconnect :: behind))
        (.returned final) ∧
      Performed place.toSessionPlace 0 start.table results final.table ∧
      results.map Prod.fst = frames.map (fun frame => frame.keyOp.op) ++ [.disconnect] ∧
      final.performed = results ∧
      final.responses.sent = results.flatMap response ∧
      final.requests.bytes = behind := by
  have alnum : ∀ keyOp ∈ frames.map KeyFrame.keyOp, startsAlnum keyOp.key := by
    intro keyOp member
    obtain ⟨frame, _, rfl⟩ := List.mem_map.mp member
    exact frame.alnum
  obtain ⟨results, final, returns, performed, asked, done⟩ :=
    session_disconnects place start (requestStream_frames frames behind) alnum
  rw [List.map_map] at asked
  exact ⟨results, final, returns, performed, asked, done⟩

end Kvs.Server
