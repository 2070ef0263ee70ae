/-
**Sessions whose responses may fail.**

A `write` on the response pipe can fail: with `EBADF` when the server has closed the pipe, with
`SIGPIPE` when the client has closed its end of it, or with an error the session passes over.
`fate` is what becomes of one response by the calls of `write` to come, and `fateOf` what
becomes of each response of a session.

`session_induction` follows a session along its stream, whatever becomes of its responses: a request
for a key is performed before it is answered (`Served`), and the `Fate` of the response says whether
the session goes on.
-/

import Kvs.Session.Stream

namespace Kvs.Server

open WhileLoop

/-! ### Responses -/

/-- What a response does to its session. -/
inductive Fate where
  /-- It is written, or fails with an error that is passed over. -/
  | goesOn
  /-- The pipe has been closed. -/
  | closed
  /-- The client has closed its end of the pipe. -/
  | broken
deriving DecidableEq

/-- What becomes of the bytes of a response that are left, and the calls that are left behind. -/
def fate : ℕ → List PipeEvent → Fate × List PipeEvent
  | _, [] => (.goesOn, [])
  | left, event :: events =>
    if left = 0 then (.goesOn, event :: events)
    else match event with
      | .moves more => fate (left - (more + 1)) events
      | .fails .eintr => fate left events
      | .fails .ebadf => (.closed, events)
      | .fails .epipe => (.broken, events)
      | .fails .zero | .fails .other => (.goesOn, events)

/-- What becomes of the response of the given number. -/
def fateOf : List PipeEvent → ℕ → Fate
  | events, 0 => (fate 2 events).1
  | events, number + 1 => fateOf (fate 2 events).2 number

/-- The session as the response leaves it. -/
def Fate.round : Fate → Session → Round
  | .goesOn, session => .inl session
  | .closed, session => .inr (.returned session)
  | .broken, session => .inr (.killed session)

/-- What `write_all` returns when this becomes of a response. -/
def Fate.Shown (errno : Errno) (written : WriteAll) : Fate → Prop
  | .goesOn => (written.code = -1 → written.errno ≠ .epipe ∧ written.errno ≠ .ebadf) ∧
      (errno ≠ .ebadf → written.errno ≠ .ebadf)
  | .closed => written.code = -1 ∧ written.errno = .ebadf
  | .broken => written.code = -1 ∧ written.errno = .epipe

/-- The error that was there before the response does not show. -/
theorem Fate.Shown.of_other {errno errno' : Errno} {written : WriteAll} {shown : Fate}
    (later : shown.Shown errno' written) (other : errno' ≠ .ebadf) : shown.Shown errno written := by
  cases shown with
  | goesOn => exact ⟨later.1, fun _ => later.2 other⟩
  | closed => exact later
  | broken => exact later

theorem shown_whole (pipe : OutPipe) (errno : Errno) : Fate.goesOn.Shown errno ⟨1, pipe, errno⟩ :=
  ⟨fun failed => absurd (show (1 : Int) = -1 from failed) (by decide), id⟩

theorem shown_passed {errno errno' : Errno} (pipe : OutPipe) (whole : errno' ≠ .epipe)
    (good : errno' ≠ .ebadf) : Fate.goesOn.Shown errno ⟨-1, pipe, errno'⟩ :=
  ⟨fun _ => ⟨whole, good⟩, fun _ => good⟩

theorem writeAllLoop_fate (events : List PipeEvent) :
    ∀ (left sent : List Byte) (errno : Errno),
      (writeAllLoop events left sent errno).pipe.events = (fate left.length events).2 ∧
      (fate left.length events).1.Shown errno (writeAllLoop events left sent errno) := by
  induction events with
  | nil => exact fun left sent errno => ⟨rfl, shown_whole _ errno⟩
  | cons event events ih =>
    intro left sent errno
    by_cases done : left = []
    · subst done
      cases event <;> exact ⟨rfl, shown_whole _ errno⟩
    have more : left.length ≠ 0 := fun none => done (List.length_eq_zero_iff.mp none)
    cases event with
    | moves more =>
      have later := ih (left.drop (more + 1)) (sent ++ left.take (more + 1)) errno
      rw [List.length_drop] at later
      rwa [writeAllLoop, fate, if_neg done, if_neg (by assumption)]
    | fails failure =>
      rw [writeAllLoop, if_neg done]
      cases failure with
      | eintr =>
        obtain ⟨same, shown⟩ := ih left sent .eintr
        rw [if_pos rfl, fate, if_neg more]
        exact ⟨same, shown.of_other (by decide)⟩
      | ebadf =>
        rw [if_neg (by decide), fate, if_neg more]
        exact ⟨rfl, rfl, rfl⟩
      | epipe =>
        rw [if_neg (by decide), fate, if_neg more]
        exact ⟨rfl, rfl, rfl⟩
      | zero =>
        rw [if_neg (by decide), fate, if_neg more]
        exact ⟨rfl, shown_passed _ (by decide) (by decide)⟩
      | other =>
        rw [if_neg (by decide), fate, if_neg more]
        exact ⟨rfl, shown_passed _ (by decide) (by decide)⟩

namespace Session

variable {place : SessionPlace} {session : Session}

/-- The operations performed so far. -/
def asked (session : Session) : List SessionOp := session.performed.map Prod.fst

/-- What becomes of the next response. -/
def nextFate (session : Session) : Fate := (fate 2 session.responses.events).1

/-- A session behind a response. -/
structure Answered (before after : Session) : Prop where
  requests : after.requests = before.requests
  events : after.responses.events = (fate 2 before.responses.events).2
  errno : before.nextFate = .goesOn → before.errno ≠ .ebadf → after.errno ≠ .ebadf
  key : after.key = before.key
  table : after.table = before.table
  activeClients : after.activeClients = before.activeClients
  performed : after.performed = before.performed

/-- **The response**, whatever becomes of it. -/
theorem respond_fate (code : Code) (result : Byte) (session : Session) (next : Session → Round) :
    ∃ after, Answered session after ∧
      session.respond code result next =
        match session.nextFate with
        | .goesOn => next after
        | .closed => .inr (.returned after)
        | .broken => .inr (.killed after) := by
  obtain ⟨events, shown⟩ := writeAllLoop_fate session.responses.events
    [getCodeString code, result] session.responses.sent session.errno
  change (fate 2 session.responses.events).1.Shown _ _ at shown
  refine ⟨{ session with
      responses := (writeAll [getCodeString code, result] session.responses session.errno).pipe
      errno := (writeAll [getCodeString code, result] session.responses session.errno).errno },
    ⟨rfl, events, fun goes good => ?_, rfl, rfl, rfl, rfl⟩, ?_⟩
  · rw [show (fate 2 session.responses.events).1 = .goesOn from goes] at shown
    exact shown.2 good
  · rw [respond, nextFate]
    cases given : (fate 2 session.responses.events).1 with
    | goesOn =>
      rw [given] at shown
      exact (if_neg fun failed => (shown.1 failed.1).1 failed.2).trans
        (if_neg fun failed => (shown.1 failed.1).2 failed.2)
    | closed =>
      rw [given] at shown
      exact (if_neg fun failed => Errno.noConfusion (failed.2.symm.trans shown.2)).trans
        (if_pos shown)
    | broken =>
      rw [given] at shown
      exact if_pos shown

/-! ### The rounds -/

/-- A session behind a request for a key that was performed and answered. -/
structure Served (before after : Session) (rest : List Byte) (op : SessionOp) : Prop where
  reading : after.Reading
  bytes : after.requests.bytes = rest
  events : after.responses.events = (fate 2 before.responses.events).2
  errno : before.nextFate = .goesOn → before.errno ≠ .ebadf → after.errno ≠ .ebadf
  activeClients : after.activeClients = before.activeClients
  asked : after.asked = before.asked ++ [op]

/-- What was read before makes no difference. -/
theorem Served.of_reads {before opened after : Session} {middle rest : List Byte} {op : SessionOp}
    (reads : Reads before opened middle) (served : Served opened after rest op) :
    Served before after rest op := by
  obtain ⟨_, _, _, clients, _, performed⟩ := View.mk.inj reads.view
  refine ⟨served.reading, served.bytes, ?_, ?_, served.activeClients.trans clients, ?_⟩
  · rw [served.events, reads.responses]
  · rw [show before.nextFate = opened.nextFate by
      rw [nextFate, nextFate, reads.responses]]
    exact fun goes good => served.errno goes (reads.errno.ne_ebadf good)
  · rw [served.asked, show opened.asked = before.asked from
      congrArg (List.map Prod.fst) performed]

/-- A request for a key that is read is performed, and then answered. -/
theorem performKey_served (reading : session.Reading) {request : KeyRequest} {result : Byte}
    {table : HashTable} (complete : Bool)
    (performed : SessionOp.perform place.notifPipeFd
      (.onKey request (CStr.ofBuffer session.key))
      (place.others session.performed.length session.table) = .ok (result, table)) :
    ∃ after, Served session after session.requests.bytes
        (.onKey request (CStr.ofBuffer session.key)) ∧
      performKey place request complete session = session.nextFate.round after := by
  let called : Session := { session with
    table
    performed := session.performed ++ [(.onKey request (CStr.ofBuffer session.key), result)] }
  obtain ⟨after, answered, responded⟩ := respond_fate request.code result called .inl
  refine ⟨after, ⟨⟨?_, ?_⟩, ?_, answered.events, answered.errno, answered.activeClients, ?_⟩, ?_⟩
  · rw [answered.requests]
    exact reading.requests
  · rw [answered.key]
    exact reading.key
  · rw [answered.requests]
  · rw [asked, answered.performed]
    exact List.map_append
  · rw [performKey, perform, performed]
    refine responded.trans ?_
    rw [show called.nextFate = session.nextFate from rfl]
    cases session.nextFate <;> rfl

/-- **A request for a key with a bucket** is performed, and then answered. -/
theorem round_served (place : SessionPlace) (reading : session.Reading) {request : KeyRequest}
    {rest : List Byte} (bytes : session.requests.bytes = getCodeString request.code :: rest)
    (enough : keySize ≤ rest.length) (alnum : startsAlnum (CStr.ofBuffer (rest.take keySize))) :
    ∃ after, Served session after (rest.drop keySize)
        (.onKey request (CStr.ofBuffer (rest.take keySize))) ∧
      session.requestRound place = session.nextFate.round after := by
  obtain ⟨opened, reads, key, round⟩ := round_onKey place reading request bytes enough
  rw [← key] at alnum
  obtain ⟨result, table, called⟩ := perform_onKey place.notifPipeFd request alnum
    (place.others opened.performed.length opened.table)
  obtain ⟨after, served, done⟩ := performKey_served reads.reading true called
  rw [reads.bytes, key] at served
  refine ⟨after, served.of_reads reads, round.trans (done.trans ?_)⟩
  rw [nextFate, nextFate, reads.responses]

/-- **A request that is cut short** is performed, and then answered, or faults. -/
theorem round_cut (place : SessionPlace) (reading : session.Reading) {request : KeyRequest}
    {field : List Byte} (bytes : session.requests.bytes = getCodeString request.code :: field)
    (short : field.length < keySize) :
    (∃ key after, Served session after [] (.onKey request key) ∧
      session.requestRound place = session.nextFate.round after) ∨
    ∃ fault final, session.requestRound place = .inr (.fault fault false final) := by
  obtain ⟨opened, reads, round⟩ := round_truncated place reading request bytes short
  cases called : SessionOp.perform place.notifPipeFd (.onKey request (CStr.ofBuffer opened.key))
      (place.others opened.performed.length opened.table) with
  | error fault => exact Or.inr ⟨fault, opened, round.trans (performKey_fault false called)⟩
  | ok outcome =>
    obtain ⟨result, table⟩ := outcome
    obtain ⟨after, served, done⟩ := performKey_served reads.reading false called
    rw [reads.bytes] at served
    refine Or.inl ⟨_, after, served.of_reads reads, round.trans (done.trans ?_)⟩
    rw [nextFate, nextFate, reads.responses]

/-- A session behind a `DISCONNECT` that was performed and answered. -/
structure Disconnected (place : ServedPlace) (before after : Session) : Prop where
  asked : after.asked = before.asked ++ [.disconnect]
  table : ∃ table, after.table = (disconnect place.notifPipeFd table).2
  activeClients : after.activeClients ⟨place.index, place.inside⟩ = ⟨0, 0, 0⟩

/-- **`DISCONNECT`** is performed, and then answered; only `SIGPIPE` keeps the session from
returning. -/
theorem round_disconnected (place : ServedPlace) (reading : session.Reading) {rest : List Byte}
    (bytes : session.requests.bytes = getCodeString .disconnect :: rest) :
    ∃ after, Disconnected place session after ∧
      session.requestRound place.toSessionPlace =
        if session.nextFate = .broken then .inr (.killed after) else .inr (.returned after) := by
  obtain ⟨opened, reads, _, round⟩ := round_opcode place.toSessionPlace reading bytes
  rw [getCode_getCodeString] at round
  let called := disconnect place.notifPipeFd (place.others opened.performed.length opened.table)
  let cleared : Session := { opened with
    table := called.2, performed := opened.performed ++ [(.disconnect, called.1)]
    activeClients := Function.update opened.activeClients ⟨place.index, place.inside⟩ ⟨0, 0, 0⟩ }
  obtain ⟨answered, after, responded⟩ := respond_fate .disconnect called.1 cleared
    fun session => .inr (.returned { session with
      closed := session.closed ++ [place.reqPipeFd, place.notifPipeFd, place.respPipeFd] })
  have performed : opened.performed = session.performed := congrArg View.performed reads.view
  have same : cleared.nextFate = session.nextFate := by
    rw [nextFate, nextFate, ← reads.responses]
  have disconnectedBy : ∀ final : Session, final.performed = answered.performed →
      final.table = answered.table → final.activeClients = answered.activeClients →
      Disconnected place session final := by
    intro final samePerformed sameTable sameClients
    refine ⟨?_, ⟨_, sameTable.trans after.table⟩, ?_⟩
    · rw [asked, samePerformed, after.performed]
      show (opened.performed ++ _).map _ = _
      rw [List.map_append, performed]
      rfl
    · rw [sameClients, after.activeClients]
      exact Function.update_self _ _ _
  have ended : opened.disconnectRound place.toSessionPlace = _ :=
    (show opened.disconnectRound place.toSessionPlace = cleared.respond .disconnect called.1 _ by
      rw [disconnectRound, perform]
      exact dif_pos place.inside).trans responded
  rw [round]
  dsimp only
  rw [ended, same]
  cases session.nextFate with
  | goesOn =>
    refine ⟨_, disconnectedBy _ ?_ ?_ ?_, (if_neg (show Fate.goesOn ≠ .broken by decide)).symm⟩
    all_goals rfl
  | closed =>
    exact ⟨answered, disconnectedBy _ rfl rfl rfl,
      (if_neg (show Fate.closed ≠ .broken by decide)).symm⟩
  | broken => exact ⟨answered, disconnectedBy _ rfl rfl rfl, (if_pos rfl).symm⟩

/-! ### Along the stream -/

/-- **The rule of sessions.** What holds at the end of a stream, at a request that faults, is cut
short or disconnects, and before a round that is made when it holds behind it, holds of every
session. -/
theorem session_induction (place : SessionPlace)
    {motive : (session : Session) → session.Reading → Prop}
    (ended : ∀ (session : Session) (reading : session.Reading), session.requests.bytes = [] →
      motive session reading)
    (ignored : ∀ (session after : Session) (reading : session.Reading) (byte : Byte)
      (rest : List Byte), session.requests.bytes = byte :: rest → opcodeOf byte = .ignored →
      (reads : Reads session after rest) → session.requestRound place = .inl after →
      motive after reads.reading → motive session reading)
    (cut : ∀ (session : Session) (reading : session.Reading) (request : KeyRequest)
      (field : List Byte), session.requests.bytes = getCodeString request.code :: field →
      field.length < keySize → motive session reading)
    (faulted : ∀ (session : Session) (reading : session.Reading) (request : KeyRequest)
      (rest : List Byte) (final : Session),
      session.requests.bytes = getCodeString request.code :: rest → keySize ≤ rest.length →
      ¬ startsAlnum (CStr.ofBuffer (rest.take keySize)) →
      session.requestRound place = .inr (.fault (.bucket (-1)) true final) →
      motive session reading)
    (served : ∀ (session after : Session) (reading : session.Reading) (request : KeyRequest)
      (rest : List Byte),
      session.requests.bytes = getCodeString request.code :: rest → keySize ≤ rest.length →
      startsAlnum (CStr.ofBuffer (rest.take keySize)) →
      (served : Served session after (rest.drop keySize)
        (.onKey request (CStr.ofBuffer (rest.take keySize)))) →
      session.requestRound place = session.nextFate.round after →
      motive after served.reading → motive session reading)
    (disconnected : ∀ (session : Session) (reading : session.Reading) (rest : List Byte),
      session.requests.bytes = getCodeString .disconnect :: rest → motive session reading)
    (session : Session) (reading : session.Reading) : motive session reading := by
  have along : ∀ (stream : List Byte) (session : Session) (reading : session.Reading),
      session.requests.bytes = stream → motive session reading := by
    intro stream
    induction stream using stream_induction with
    | nil => exact ended
    | onKey request rest enough ih =>
      intro session reading bytes
      by_cases alnum : startsAlnum (CStr.ofBuffer (rest.take keySize))
      · obtain ⟨after, done, round⟩ := round_served place reading bytes enough alnum
        exact served session after reading request rest bytes enough alnum done round
          (ih after done.reading done.bytes)
      · obtain ⟨final, _, round⟩ := round_faulted reading request bytes enough
          (perform_fault place.notifPipeFd request alnum _)
        exact faulted session reading request rest final bytes enough alnum round
    | truncated request field short =>
      exact fun session reading bytes => cut session reading request field bytes short
    | disconnect rest => exact fun session reading bytes => disconnected session reading rest bytes
    | ignored byte rest opcode ih =>
      intro session reading bytes
      have code := opcodeOf_code byte
      rw [opcode] at code
      obtain ⟨after, reads, round⟩ := round_ignored place reading bytes code
      exact ignored session after reading byte rest bytes opcode reads round
        (ih after reads.reading reads.bytes)
  exact along session.requests.bytes session reading rfl

end Session

end Kvs.Server
