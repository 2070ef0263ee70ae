/-
**How sessions end.**

What `run_client_requests` does at the tail of a stream decides two things.

* *Are truncated requests without effect?* `read_all` returns `0` at the end of the stream, and the
  session takes only `-1` for a failure: a request whose field is cut short is performed for the
  bytes there are and what the key buffer held before; and a byte that is no opcode is passed over,
  with what follows taken for a request. `truncated_without_effect_iff` says which streams this
  spares.
* *Does every session end and clean up?* The end of the stream is no reason to leave the loop, so
  a client that closes its pipe without `DISCONNECT` leaves a session that never ends, with its
  subscriptions and its entry. `session_ends_iff` says which sessions end.

A key without a bucket ends a session in a fault, and a response that fails with `EBADF` or meets
`SIGPIPE` ends it where it is, so both conditions speak of the keys and of the responses.
-/

import Kvs.Session.Answers
import Kvs.Session.Framing
import Kvs.Store.Notification

namespace Kvs.Server

open WhileLoop

/-- How `client_thread` starts a session at a place, whatever becomes of its responses: with an
entry that holds three descriptors. -/
structure ClientSession (place : ServedPlace) where
  /-- The calls of `read` on the request pipe. -/
  deliveries : List Delivery
  /-- The calls of `write` on the response pipe. -/
  answers : List PipeEvent
  errno : Errno
  key : List Byte
  keyLength : key.length = keySize
  table : HashTable
  activeClients : Fin maxClients → ActiveClient
  registered : activeClients ⟨place.index, place.inside⟩ ≠ ⟨0, 0, 0⟩

namespace ClientSession

variable {place : ServedPlace}

/-- The session on a stream of bytes. -/
def session (start : ClientSession place) (stream : List Byte) : Session where
  requests := ⟨stream, start.deliveries.map Subtype.val⟩
  responses := ⟨[], start.answers⟩
  errno := start.errno
  key := start.key
  table := start.table
  activeClients := start.activeClients
  closed := []
  performed := []

theorem reading (start : ClientSession place) (stream : List Byte) :
    (start.session stream).Reading :=
  ⟨healthy_deliveries _, start.keyLength⟩

end ClientSession

/-- The session of `freshStart`, with its entry filled. -/
def freshSession : ClientSession freshPlace where
  deliveries := []
  answers := []
  errno := .zero
  key := freshStart.key
  keyLength := freshStart.keyLength
  table := createHashTable
  activeClients := fun _ => ⟨5, 6, 7⟩
  registered := by decide

namespace Session

variable {place : SessionPlace} {session : Session}

/-! ### What a round does to the operations -/

/-- The operations performed; none when the run is faulty. -/
def operations : Round → Option (List SessionOp)
  | .inl session => some session.asked
  | .inr (.returned session) => some session.asked
  | .inr (.exited session) => some session.asked
  | .inr (.killed session) => some session.asked
  | .inr (.fault _ _ _) => none

/-- The operations performed before are among those performed after. -/
def Grows (session : Session) (round : Round) : Prop :=
  ∀ ops, operations round = some ops → session.asked <+: ops

theorem Grows.of_asked {before after : Session} {round : Round} (grows : after.Grows round)
    (earlier : before.asked <+: after.asked) : before.Grows round :=
  fun ops performed => earlier.trans (grows ops performed)

theorem grows_of_asked {before after : Session} {round : Round}
    (performed : operations round = some after.asked) (earlier : before.asked <+: after.asked) :
    before.Grows round :=
  fun _ more => Option.some_injective _ (performed.symm.trans more) ▸ earlier

theorem perform_grows (op : SessionOp) (complete : Bool) {next : Byte → Session → Round}
    (later : ∀ result after, Grows after (next result after)) :
    session.Grows (session.perform place op complete next) := by
  rw [perform]
  split
  · exact fun ops performed => by cases performed
  · refine (later _ _).of_asked ?_
    rw [asked, asked, List.map_append]
    exact List.prefix_append _ _

theorem respond_grows (code : Code) (result : Byte) {next : Session → Round}
    (later : ∀ after, Grows after (next after)) :
    session.Grows (session.respond code result next) := by
  rw [respond]
  dsimp only
  split_ifs
  · exact grows_of_asked rfl List.prefix_rfl
  · exact grows_of_asked rfl List.prefix_rfl
  · exact (later _).of_asked List.prefix_rfl

theorem grows_inl (session : Session) : session.Grows (.inl session) :=
  grows_of_asked rfl List.prefix_rfl

/-- **No operation is taken back**, whatever the pipes do. -/
theorem round_grows (place : SessionPlace) (session : Session) :
    session.Grows (session.requestRound place) := by
  have subscribed : ∀ session : Session, session.Grows (session.subscribeRound place) := by
    intro session
    rw [subscribeRound, readKey]
    dsimp only
    split_ifs
    · exact grows_of_asked rfl List.prefix_rfl
    · exact (perform_grows _ _ fun _ _ => respond_grows _ _ grows_inl).of_asked List.prefix_rfl
  have unsubscribed : ∀ session : Session, session.Grows (session.unsubscribeRound place) := by
    intro session
    rw [unsubscribeRound, readKey]
    dsimp only
    split_ifs
    · exact grows_of_asked rfl List.prefix_rfl
    · exact grows_of_asked rfl List.prefix_rfl
    · exact (perform_grows _ _ fun _ _ => respond_grows _ _ grows_inl).of_asked List.prefix_rfl
  have disconnected : ∀ session : Session, session.Grows (session.disconnectRound place) := by
    intro session
    refine perform_grows _ _ fun result after => ?_
    split
    · refine (respond_grows _ _ fun answered => ?_).of_asked List.prefix_rfl
      exact grows_of_asked rfl List.prefix_rfl
    · exact fun ops performed => by cases performed
  rw [requestRound]
  dsimp only
  split_ifs
  · exact grows_of_asked rfl List.prefix_rfl
  · exact grows_of_asked rfl List.prefix_rfl
  · split
    · exact (subscribed _).of_asked List.prefix_rfl
    · exact (unsubscribed _).of_asked List.prefix_rfl
    · exact (disconnected _).of_asked List.prefix_rfl
    · exact grows_of_asked rfl List.prefix_rfl
    · exact grows_of_asked rfl List.prefix_rfl

/-- What a session settles on, it has performed at every moment. -/
theorem asked_of_settles {ops : List SessionOp}
    (settles : Settles (requestRound place) session operations (some ops)) :
    session.asked <+: ops := by
  obtain ⟨start, observed⟩ := settles
  have performed := observed start le_rfl
  clear observed
  induction start generalizing session with
  | zero => exact grows_inl session ops performed
  | succ count ih =>
    cases round : session.requestRound place with
    | inl next =>
      rw [rounds_of_inl round] at performed
      exact (round_grows place session _ (by rw [round]; rfl)).trans (ih performed)
    | inr result =>
      rw [rounds_of_inr round, ← round] at performed
      exact round_grows place session ops performed

/-- A session settles on the operations of its last round. -/
theorem settles_of_inr {result : SessionEnd} (round : session.requestRound place = .inr result) :
    ∀ ops, Settles (requestRound place) session operations (some ops) ↔
      operations (.inr result) = some ops := by
  have settled := (returns_of_inr round).settles operations
  exact fun ops => ⟨settled.unique, fun same => same ▸ settled⟩

/-- A request that was performed is among the operations a session settles on. -/
theorem settles_served {after : Session} {given : Fate} {ops : List SessionOp}
    (round : session.requestRound place = given.round after)
    (settles : Settles (requestRound place) session operations (some ops)) :
    after.asked <+: ops := by
  cases given with
  | goesOn => exact asked_of_settles ((reaches_settles (.single round)).mp settles)
  | closed => exact grows_of_asked rfl List.prefix_rfl ops ((settles_of_inr round ops).mp settles)
  | broken => exact grows_of_asked rfl List.prefix_rfl ops ((settles_of_inr round ops).mp settles)

/-- At the end of the stream nothing more is performed. -/
theorem settles_atEnd (place : SessionPlace) (reading : session.Reading)
    (bytes : session.requests.bytes = []) :
    Settles (requestRound place) session operations (some session.asked) := by
  refine settles_of_invariant (fun later =>
    later.Reading ∧ later.requests.bytes = [] ∧ later.asked = session.asked)
    (fun later kept => congrArg some kept.2.2) ?_ ⟨reading, bytes, rfl⟩
  rintro later ⟨reading, bytes, same⟩
  obtain ⟨after, reads, round⟩ := round_end place reading bytes
  have asked : after.asked = session.asked :=
    (congrArg (fun view : View => view.performed.map Prod.fst) reads.view).trans same
  by_cases stale : after.errno = .ebadf
  · exact Or.inr ⟨.returned after, by rw [round, if_pos stale], congrArg some asked⟩
  · exact Or.inl ⟨after, by rw [round, if_neg stale], reads.reading, reads.bytes, asked⟩

end Session

/-! ### Truncated requests -/

/-- The operations of the complete frames at the front of a stream, up to a `DISCONNECT`, and the
bytes behind them. -/
def completeFrames : List Byte → List SessionOp × List Byte
  | [] => ([], [])
  | byte :: rest =>
    match opcodeOf byte with
    | .onKey request =>
      if rest.length < keySize then ([], byte :: rest)
      else
        let (ops, behind) := completeFrames (rest.drop keySize)
        (.onKey request (CStr.ofBuffer (rest.take keySize)) :: ops, behind)
    | .disconnect => ([.disconnect], rest)
    | .ignored => ([], byte :: rest)
termination_by stream => stream.length
decreasing_by simp

/-- A session performs the operations of the complete frames, and no others. -/
def PerformsFrames {place : ServedPlace} (start : ClientSession place) (stream : List Byte) :
    Prop :=
  Settles (Session.requestRound place.toSessionPlace) (start.session stream) Session.operations
    (some (completeFrames stream).1)

/-- Frames whose operations are all performed, and nothing behind them that is taken for a request:
every key has a bucket, the session goes on behind every response but the last one, and behind the
last it is left, or finds only bytes that are no opcode. -/
structure PerformedAlone (ops : List SessionOp) (behind : List Byte) (answers : List PipeEvent) :
    Prop where
  buckets : ∀ request key, .onKey request key ∈ ops → startsAlnum key
  goesOn : ∀ number, number + 1 < ops.length → fateOf answers number = .goesOn
  alone : .disconnect ∈ ops ∨ (∃ number < ops.length, fateOf answers number ≠ .goesOn) ∨
    ∀ byte ∈ behind, opcodeOf byte = .ignored

section Frames

variable {byte : Byte} {rest : List Byte} {request : KeyRequest}

@[simp] theorem completeFrames_nil : completeFrames [] = ([], []) := by
  rw [completeFrames]

theorem completeFrames_onKey (opcode : opcodeOf byte = .onKey request)
    (enough : keySize ≤ rest.length) :
    completeFrames (byte :: rest) =
      (.onKey request (CStr.ofBuffer (rest.take keySize)) ::
        (completeFrames (rest.drop keySize)).1, (completeFrames (rest.drop keySize)).2) := by
  rw [completeFrames, opcode]
  exact if_neg (not_lt.mpr enough)

theorem completeFrames_truncated (opcode : opcodeOf byte = .onKey request)
    (short : rest.length < keySize) : completeFrames (byte :: rest) = ([], byte :: rest) := by
  rw [completeFrames, opcode]
  exact if_pos short

theorem completeFrames_disconnect (opcode : opcodeOf byte = .disconnect) :
    completeFrames (byte :: rest) = ([.disconnect], rest) := by
  rw [completeFrames, opcode]

theorem completeFrames_ignored (opcode : opcodeOf byte = .ignored) :
    completeFrames (byte :: rest) = ([], byte :: rest) := by
  rw [completeFrames, opcode]

end Frames

section Alone

variable {ops : List SessionOp} {behind : List Byte} {answers : List PipeEvent}

theorem performedAlone_nil :
    PerformedAlone [] behind answers ↔ ∀ byte ∈ behind, opcodeOf byte = .ignored := by
  refine ⟨fun spared => ?_, fun ignored => ⟨by simp, by simp, .inr (.inr ignored)⟩⟩
  rcases spared.alone with member | ⟨number, inside, _⟩ | ignored
  · exact absurd member List.not_mem_nil
  · exact absurd inside (Nat.not_lt_zero number)
  · exact ignored

theorem performedAlone_disconnect : PerformedAlone [.disconnect] behind answers :=
  ⟨by simp, by simp, .inl (List.mem_singleton_self _)⟩

/-- Behind a response the session outlives, the others decide. -/
theorem performedAlone_cons_goesOn {request : KeyRequest} {key : CStr} (alnum : startsAlnum key)
    (outlived : (fate 2 answers).1 = .goesOn) :
    PerformedAlone (.onKey request key :: ops) behind answers ↔
      PerformedAlone ops behind (fate 2 answers).2 := by
  constructor
  · rintro ⟨buckets, goesOn, alone⟩
    refine ⟨fun request key member => buckets request key (List.mem_cons_of_mem _ member),
      fun number inside => goesOn (number + 1) (Nat.succ_lt_succ inside), ?_⟩
    rcases alone with member | ⟨number, inside, failed⟩ | ignored
    · exact .inl (by simpa using member)
    · cases number with
      | zero => exact absurd outlived failed
      | succ number => exact .inr (.inl ⟨number, Nat.lt_of_succ_lt_succ inside, failed⟩)
    · exact .inr (.inr ignored)
  · rintro ⟨buckets, goesOn, alone⟩
    refine ⟨fun request' key' member => ?_, fun number inside => ?_, ?_⟩
    · rcases List.mem_cons.mp member with same | later
      · cases same
        exact alnum
      · exact buckets request' key' later
    · cases number with
      | zero => exact outlived
      | succ number => exact goesOn number (Nat.lt_of_succ_lt_succ inside)
    · rcases alone with member | ⟨number, inside, failed⟩ | ignored
      · exact .inl (List.mem_cons_of_mem _ member)
      · exact .inr (.inl ⟨number + 1, Nat.succ_lt_succ inside, failed⟩)
      · exact .inr (.inr ignored)

/-- The response that ends the session has to be the last one. -/
theorem performedAlone_cons_left {request : KeyRequest} {key : CStr} (alnum : startsAlnum key)
    (left : (fate 2 answers).1 ≠ .goesOn) :
    PerformedAlone (.onKey request key :: ops) behind answers ↔ ops = [] := by
  constructor
  · rintro ⟨_, goesOn, _⟩
    by_contra more
    exact left (goesOn 0 (Nat.succ_lt_succ (List.length_pos_iff.mpr more)))
  · rintro rfl
    refine ⟨fun request' key' member => ?_, fun number inside => ?_, ?_⟩
    · cases List.mem_singleton.mp member
      exact alnum
    · exact absurd inside (by simp)
    · exact .inr (.inl ⟨0, Nat.one_pos, left⟩)

end Alone

namespace Session

variable {place : SessionPlace}

/-- A request that is performed is one more operation. -/
theorem not_settles_served {session after : Session} {given : Fate} {op : SessionOp}
    (more : after.asked = session.asked ++ [op])
    (round : session.requestRound place = given.round after) :
    ¬ Settles (requestRound place) session operations (some session.asked) := by
  intro settles
  have length := (settles_served round settles).length_le
  rw [more, List.length_append, List.length_singleton] at length
  omega

/-- A round that faults settles on nothing. -/
theorem not_settles_fault {session final : Session} {fault : Fault} {complete : Bool}
    (round : session.requestRound place = .inr (.fault fault complete final))
    (ops : List SessionOp) :
    ¬ Settles (requestRound place) session operations (some ops) := by
  rw [settles_of_inr round]
  exact fun performed => by cases performed

theorem settles_disconnected (place : ServedPlace) {session after : Session}
    (disconnected : Disconnected place session after)
    (round : session.requestRound place.toSessionPlace =
      if session.nextFate = .broken then .inr (.killed after) else .inr (.returned after))
    (ops : List SessionOp) :
    Settles (requestRound place.toSessionPlace) session operations (some ops) ↔
      session.asked ++ [.disconnect] = ops := by
  rw [← disconnected.asked]
  split_ifs at round
  · exact (settles_of_inr round ops).trans Option.some_inj
  · exact (settles_of_inr round ops).trans Option.some_inj

/-- Nothing is performed of a stream exactly when none of its bytes is an opcode of a request. -/
theorem settles_idle_iff (place : ServedPlace) (session : Session) (reading : session.Reading) :
    Settles (requestRound place.toSessionPlace) session operations (some session.asked) ↔
      ∀ byte ∈ session.requests.bytes, opcodeOf byte = .ignored := by
  have request : ∀ {byte : Byte} {rest : List Byte} {session : Session} {opcode : Opcode},
      session.requests.bytes = byte :: rest → opcodeOf byte = opcode → opcode ≠ .ignored →
      ¬ ∀ byte ∈ session.requests.bytes, opcodeOf byte = .ignored := by
    intro byte rest session opcode bytes code other ignored
    exact other (code.symm.trans (ignored byte (by rw [bytes]; exact List.mem_cons_self)))
  induction session, reading using session_induction place.toSessionPlace with
  | ended session reading bytes =>
    exact iff_of_true (settles_atEnd _ reading bytes) (by simp [bytes])
  | ignored session after _ byte rest bytes opcode reads round ih =>
    have asked : after.asked = session.asked :=
      congrArg (fun view : View => view.performed.map Prod.fst) reads.view
    rw [reaches_settles (.single round), ← asked]
    refine Iff.trans ih ?_
    rw [reads.bytes, bytes, List.forall_mem_cons]
    exact ⟨fun later => ⟨opcode, later⟩, And.right⟩
  | cut session reading request' field bytes short =>
    refine iff_of_false ?_ (request bytes (opcodeOf_request request') (by simp))
    rcases round_cut place.toSessionPlace reading bytes short with
      ⟨key, after, served, round⟩ | ⟨fault, final, round⟩
    · exact not_settles_served served.asked round
    · exact not_settles_fault round _
  | faulted session _ request' rest final bytes _ _ round =>
    exact iff_of_false (not_settles_fault round _)
      (request bytes (opcodeOf_request request') (by simp))
  | served session after _ request' rest bytes _ _ served round _ =>
    exact iff_of_false (not_settles_served served.asked round)
      (request bytes (opcodeOf_request request') (by simp))
  | disconnected session reading rest bytes =>
    obtain ⟨after, disconnected, round⟩ := round_disconnected place reading bytes
    refine iff_of_false ?_ (request bytes (show opcodeOf _ = .disconnect by decide) (by simp))
    rw [settles_disconnected place disconnected round]
    simp

/-- **A session performs the complete frames and nothing else** under `PerformedAlone`. -/
theorem settles_frames_iff (place : ServedPlace) (session : Session) (reading : session.Reading) :
    Settles (requestRound place.toSessionPlace) session operations
        (some (session.asked ++ (completeFrames session.requests.bytes).1)) ↔
      PerformedAlone (completeFrames session.requests.bytes).1
        (completeFrames session.requests.bytes).2 session.responses.events := by
  have idle : ∀ session : Session, session.Reading →
      completeFrames session.requests.bytes = ([], session.requests.bytes) →
      (Settles (requestRound place.toSessionPlace) session operations
          (some (session.asked ++ (completeFrames session.requests.bytes).1)) ↔
        PerformedAlone (completeFrames session.requests.bytes).1
          (completeFrames session.requests.bytes).2 session.responses.events) := by
    intro session reading none
    rw [none, performedAlone_nil, List.append_nil]
    exact settles_idle_iff place session reading
  induction session, reading using session_induction place.toSessionPlace with
  | ended session reading bytes =>
    exact idle session reading (by rw [bytes, completeFrames_nil])
  | ignored session after reading byte rest bytes opcode _ _ _ =>
    exact idle session reading (by rw [bytes, completeFrames_ignored opcode])
  | cut session reading request field bytes short =>
    exact idle session reading
      (by rw [bytes, completeFrames_truncated (opcodeOf_request request) short])
  | faulted session _ request rest final bytes enough other round =>
    rw [bytes, completeFrames_onKey (opcodeOf_request request) enough]
    refine iff_of_false (not_settles_fault round _) fun alone => other ?_
    exact alone.buckets request _ List.mem_cons_self
  | served session after _ request rest bytes enough alnum served round ih =>
    rw [bytes, completeFrames_onKey (opcodeOf_request request) enough]
    rw [served.bytes, served.asked, served.events, List.append_assoc, List.singleton_append] at ih
    by_cases outlived : session.nextFate = .goesOn
    · rw [outlived] at round
      rw [performedAlone_cons_goesOn alnum outlived, reaches_settles (.single round)]
      exact ih
    · rw [performedAlone_cons_left alnum outlived]
      obtain ⟨result, ended, asked⟩ : ∃ result,
          session.requestRound place.toSessionPlace = .inr result ∧
            operations (.inr result) = some after.asked := by
        cases given : session.nextFate with
        | goesOn => exact absurd given outlived
        | closed => exact ⟨.returned after, by rw [round, given]; rfl, rfl⟩
        | broken => exact ⟨.killed after, by rw [round, given]; rfl, rfl⟩
      rw [settles_of_inr ended, asked, served.asked, Option.some_inj, List.append_cancel_left_eq,
        List.cons_inj_right]
      exact eq_comm
  | disconnected session reading rest bytes =>
    obtain ⟨after, disconnected, round⟩ := round_disconnected place reading bytes
    rw [bytes, completeFrames_disconnect (by decide)]
    exact iff_of_true ((settles_disconnected place disconnected round _).mpr rfl)
      performedAlone_disconnect

end Session

/-- **Truncated requests.** A session performs the operations of the complete frames, and no others,
if and only if they are performed alone: every key has a bucket, the session goes on behind every
response but the last, and behind the last it is left or only bytes that are no opcode follow. -/
theorem truncated_without_effect_iff {place : ServedPlace} (start : ClientSession place)
    (stream : List Byte) :
    PerformsFrames start stream ↔
      PerformedAlone (completeFrames stream).1 (completeFrames stream).2 start.answers :=
  Session.settles_frames_iff place (start.session stream) (start.reading stream)

/-- A `SUBSCRIBE` cut short after two bytes of its key is performed. -/
theorem shortSubscribe_performed : ¬ PerformsFrames freshSession (ascii ['3', 'a', 'b']) := by
  intro performs
  have frames : completeFrames (ascii ['3', 'a', 'b']) = ([], ascii ['3', 'a', 'b']) :=
    completeFrames_truncated (show opcodeOf '3'.toUInt8 = .onKey .subscribe by decide) (by decide)
  have alone := (Session.settles_frames_iff freshPlace _ (freshSession.reading _)).mp performs
  rw [show (freshSession.session (ascii ['3', 'a', 'b'])).requests.bytes = ascii ['3', 'a', 'b']
    from rfl, frames, performedAlone_nil] at alone
  cases alone '3'.toUInt8 (by decide)

/-! ### Ending and cleaning up -/

/-- A slot of some key holds the descriptor; `0` is an empty slot. -/
def HoldsSlot (table : HashTable) (fd : Fd) : Prop :=
  fd ≠ 0 ∧ ∃ index, ∃ node ∈ table.table index, fd ∈ node.subscribersFds.fds

/-- `disconnect` leaves no slot that holds the descriptor. -/
theorem not_holdsSlot_disconnect (fd : Fd) (table : HashTable) :
    ¬ HoldsSlot (disconnect fd table).2 fd := by
  rintro ⟨nonzero, index, node, member, held⟩
  obtain ⟨before, _, rfl⟩ := List.mem_map.mp member
  obtain ⟨slot, _, same⟩ := List.mem_map.mp held
  split at same
  · exact nonzero same.symm
  · rename_i different
    exact different same

/-- The session returns, with its subscriptions and its entry cleared. -/
def EndsClean (place : ServedPlace) (session : Session) : Prop :=
  ∃ final, Returns (Session.requestRound place.toSessionPlace) session (.returned final) ∧
    ¬ HoldsSlot final.table place.notifPipeFd ∧
    final.activeClients ⟨place.index, place.inside⟩ = ⟨0, 0, 0⟩

/-- The stream has a `DISCONNECT` where a request may start. -/
def Tail.Disconnects : Tail → Prop
  | .disconnected _ => True
  | _ => False

/-- Requests that a `DISCONNECT` ends and that are all answered: every key has a bucket, the session
goes on behind every response, and the client is there to read the one to its `DISCONNECT`. -/
structure AnsweredToEnd (ops : List KeyOp) (tail : Tail) (answers : List PipeEvent) : Prop where
  disconnects : tail.Disconnects
  buckets : ∀ keyOp ∈ ops, startsAlnum keyOp.key
  goesOn : ∀ number < ops.length, fateOf answers number = .goesOn
  unbroken : fateOf answers ops.length ≠ .broken

theorem answeredToEnd_cons {keyOp : KeyOp} {ops : List KeyOp} {tail : Tail}
    {answers : List PipeEvent} (alnum : startsAlnum keyOp.key)
    (outlived : (fate 2 answers).1 = .goesOn) :
    AnsweredToEnd (keyOp :: ops) tail answers ↔ AnsweredToEnd ops tail (fate 2 answers).2 := by
  constructor
  · rintro ⟨disconnects, buckets, goesOn, unbroken⟩
    exact ⟨disconnects, fun other member => buckets other (List.mem_cons_of_mem _ member),
      fun number inside => goesOn (number + 1) (Nat.succ_lt_succ inside), unbroken⟩
  · rintro ⟨disconnects, buckets, goesOn, unbroken⟩
    refine ⟨disconnects, List.forall_mem_cons.mpr ⟨alnum, buckets⟩, fun number inside => ?_,
      unbroken⟩
    cases number with
    | zero => exact outlived
    | succ number => exact goesOn number (Nat.lt_of_succ_lt_succ inside)

namespace Session

variable {session : Session}

/-- At the end of the stream a session never returns, unless `errno` is stale. -/
theorem diverges_atEnd (place : SessionPlace) (reading : session.Reading)
    (bytes : session.requests.bytes = []) (good : session.errno ≠ .ebadf) :
    Diverges (requestRound place) session := by
  refine diverges_of_invariant (fun session =>
    session.Reading ∧ session.requests.bytes = [] ∧ session.errno ≠ .ebadf) ?_
    ⟨reading, bytes, good⟩
  rintro session ⟨reading, bytes, good⟩
  obtain ⟨after, reads, round⟩ := round_end place reading bytes
  have afterGood := reads.errno.ne_ebadf good
  exact ⟨after, by rw [round, if_neg afterGood], reads.reading, reads.bytes, afterGood⟩

variable {place : ServedPlace}

theorem endsClean_step {next : Session}
    (round : session.requestRound place.toSessionPlace = .inl next) :
    EndsClean place session ↔ EndsClean place next := by
  rw [EndsClean, EndsClean]
  simp only [reaches_returns (.single round)]

theorem not_endsClean_of_diverges
    (never : Diverges (requestRound place.toSessionPlace) session) : ¬ EndsClean place session :=
  fun ⟨_, returns, _⟩ => never.not_returns _ returns

/-- A session that is left otherwise than by returning with a cleared entry does not end clean. -/
theorem not_endsClean_of_inr {result : SessionEnd}
    (round : session.requestRound place.toSessionPlace = .inr result)
    (unclean : ∀ final, result = .returned final →
      final.activeClients ⟨place.index, place.inside⟩ ≠ ⟨0, 0, 0⟩) : ¬ EndsClean place session :=
  fun ⟨final, returns, _, cleared⟩ =>
    unclean final (returns_of_inr round |>.unique returns) cleared

/-- A response that ends its session leaves the entry as it was. -/
theorem not_endsClean_of_left {after : Session} {rest : List Byte} {op : SessionOp}
    (registered : session.activeClients ⟨place.index, place.inside⟩ ≠ ⟨0, 0, 0⟩)
    (served : Served session after rest op) (left : session.nextFate ≠ .goesOn)
    (round : session.requestRound place.toSessionPlace = session.nextFate.round after) :
    ¬ EndsClean place session := by
  have afterRegistered := served.activeClients ▸ registered
  cases given : session.nextFate with
  | goesOn => exact absurd given left
  | closed =>
    rw [given] at round
    refine not_endsClean_of_inr round fun final same => ?_
    cases same
    exact afterRegistered
  | broken =>
    rw [given] at round
    exact not_endsClean_of_inr round fun final same => by cases same

/-- **How a session ends**, from any point of it where `errno` is not stale and its entry is
filled. -/
theorem endsClean_iff (place : ServedPlace) (session : Session) (reading : session.Reading)
    (good : session.errno ≠ .ebadf)
    (registered : session.activeClients ⟨place.index, place.inside⟩ ≠ ⟨0, 0, 0⟩) :
    EndsClean place session ↔
      AnsweredToEnd (requestStream session.requests.bytes).1
        (requestStream session.requests.bytes).2 session.responses.events := by
  induction session, reading using session_induction place.toSessionPlace with
  | ended session reading bytes =>
    rw [bytes, requestStream_nil]
    exact iff_of_false (not_endsClean_of_diverges (diverges_atEnd _ reading bytes good))
      fun answered => answered.disconnects
  | ignored session after _ byte rest bytes opcode reads round ih =>
    have clients : after.activeClients = session.activeClients :=
      congrArg View.activeClients reads.view
    rw [endsClean_step round, bytes, requestStream_ignored opcode, ← reads.bytes, ← reads.responses]
    exact ih (reads.errno.ne_ebadf good) (clients ▸ registered)
  | cut session reading request field bytes short =>
    rw [bytes, requestStream_truncated (opcodeOf_request request) short]
    refine iff_of_false ?_ fun answered => answered.disconnects
    rcases round_cut place.toSessionPlace reading bytes short with
      ⟨key, after, served, round⟩ | ⟨fault, final, round⟩
    · by_cases outlived : session.nextFate = .goesOn
      · rw [outlived] at round
        rw [endsClean_step round]
        exact not_endsClean_of_diverges
          (diverges_atEnd _ served.reading served.bytes (served.errno outlived good))
      · exact not_endsClean_of_left registered served outlived round
    · exact not_endsClean_of_inr round fun final same => by cases same
  | faulted session _ request rest final bytes enough other round =>
    rw [bytes, requestStream_onKey (opcodeOf_request request) enough]
    refine iff_of_false (not_endsClean_of_inr round fun final same => by cases same)
      fun answered => other ?_
    exact answered.buckets _ List.mem_cons_self
  | served session after _ request rest bytes enough alnum served round ih =>
    rw [bytes, requestStream_onKey (opcodeOf_request request) enough]
    by_cases outlived : session.nextFate = .goesOn
    · have later := ih (served.errno outlived good) (served.activeClients ▸ registered)
      rw [served.bytes, served.events] at later
      rw [outlived] at round
      rw [endsClean_step round, answeredToEnd_cons alnum outlived]
      exact later
    · refine iff_of_false (not_endsClean_of_left registered served outlived round)
        fun answered => outlived ?_
      exact answered.goesOn 0 Nat.succ_pos'
  | disconnected session reading rest bytes =>
    obtain ⟨after, disconnected, round⟩ := round_disconnected place reading bytes
    rw [bytes, requestStream_disconnect (by decide)]
    split_ifs at round with broken
    · exact iff_of_false (not_endsClean_of_inr round fun final same => by cases same)
        fun answered => answered.unbroken broken
    · obtain ⟨table, same⟩ := disconnected.table
      refine iff_of_true ⟨after, returns_of_inr round, ?_, disconnected.activeClients⟩
        ⟨trivial, by simp, by simp, broken⟩
      rw [same]
      exact not_holdsSlot_disconnect _ _

end Session

/-- **Ending sessions.** A session returns with its subscriptions and its entry cleared if and only
if the client sends `DISCONNECT`, every key it requests before has a bucket, the session goes on
behind its responses, and the one to `DISCONNECT` does not meet `SIGPIPE`. -/
theorem session_ends_iff {place : ServedPlace} (start : ClientSession place) (stream : List Byte)
    (good : start.errno ≠ .ebadf) :
    EndsClean place (start.session stream) ↔
      AnsweredToEnd (requestStream stream).1 (requestStream stream).2 start.answers :=
  Session.endsClean_iff place (start.session stream) (start.reading stream) good start.registered

/-- A place where another client keeps subscribing to `a`. -/
def sharedPlace : ServedPlace where
  reqPipeFd := 8
  respPipeFd := 9
  notifPipeFd := 10
  index := 1
  others := fun _ table =>
    match writeSubscription table keyA.val 7 with
    | .ok (_, table) => table
    | .error _ => table
  inside := by decide

/-- A session that is interrupted and whose first response fails, on a table with a pair. -/
def sharedSession : ClientSession sharedPlace where
  deliveries := [⟨.fails .eintr, rfl⟩, ⟨.moves 0, trivial⟩, ⟨.moves 2, trivial⟩]
  answers := [.moves 0, .fails .other, .fails .eintr, .moves 0]
  errno := .other
  key := freshStart.key
  keyLength := freshStart.keyLength
  table :=
    match writePair createHashTable keyA.val valueAnna with
    | .ok (_, table, _) => table
    | .error _ => createHashTable
  activeClients := fun index => if index.val = 1 then ⟨8, 9, 10⟩ else ⟨5, 6, 7⟩
  registered := by decide

/-- A key of one character, in a field. -/
def shortField (first : Byte) : List Byte := first :: List.replicate 40 nul

/-- A client subscribes to `a`, sends a byte that is no opcode, unsubscribes from `b` and leaves. -/
theorem session_ends_iff_shared :
    EndsClean sharedPlace (sharedSession.session (getCodeString .subscribe ::
      (shortField 'a'.toUInt8 ++ 'x'.toUInt8 :: getCodeString .unsubscribe ::
        (shortField 'b'.toUInt8 ++ [getCodeString .disconnect, nul])))) := by
  refine (session_ends_iff sharedSession _ (by decide)).mpr ?_
  have length : ∀ first, (shortField first).length = keySize := fun first => by
    rw [shortField, List.length_cons, List.length_replicate]
    rfl
  rw [requestStream_field (show opcodeOf (getCodeString .subscribe) = .onKey .subscribe by decide)
      (length _),
    requestStream_ignored (show opcodeOf 'x'.toUInt8 = .ignored by decide),
    requestStream_field (show opcodeOf (getCodeString .unsubscribe) = .onKey .unsubscribe by decide)
      (length _),
    requestStream_disconnect (show opcodeOf (getCodeString .disconnect) = .disconnect by decide)]
  exact ⟨trivial, by decide, by decide, by decide⟩

/-- A client that subscribes to a key and closes its pipe leaves a session that never ends. -/
theorem silentClient_stays :
    ¬ EndsClean freshPlace
      (freshSession.session ('3'.toUInt8 :: 'a'.toUInt8 :: List.replicate 40 nul)) := by
  have parsed := requestStream_onKey
    (show opcodeOf '3'.toUInt8 = .onKey .subscribe by decide)
    (show keySize ≤ ('a'.toUInt8 :: List.replicate 40 nul).length by decide)
  rw [show ('a'.toUInt8 :: List.replicate 40 nul).drop keySize = [] by decide,
    requestStream_nil] at parsed
  intro clean
  have answered := (Session.endsClean_iff freshPlace _ (freshSession.reading _) (by decide)
    freshSession.registered).mp clean
  exact (congrArg Prod.snd parsed ▸ answered.disconnects :)

end Kvs.Server
