/-
**Bucket indices, from the input to the table.**

A key comes to the table from a job file, through `parse_write` and `parse_read_delete`, or from a
client, through the `41` bytes of a key field. Neither way looks at the first character, and `hash`
answers `-1` for any but a letter or a digit. `bucket_index_safe_iff` says which inputs never send
an access outside the table: those whose accepted keys all start with a letter or a digit.

A field without a NUL is left out: its key has more bytes than the field.
-/

import Kvs.Job.Served
import Kvs.Session.Endings

namespace Kvs.Server

open WhileLoop

/-! ### The accesses of a job -/

/-- The keys of the commands a job file is accepted to have. -/
def jobKeys (garbage file : List Byte) : List CStr :=
  (jobTrace garbage file).dispatched.flatMap Dispatch.keys

/-- No run of the job accesses the table outside its array. -/
def JobInside (around : Surroundings) (garbage file : List Byte) (job : JobState) : Prop :=
  ∀ iterations index, runJob around garbage iterations file job ≠ some (.error (.bucket index))

/-- **A job stays inside the table** exactly when its keys have buckets. -/
theorem jobInside_iff (around : Surroundings) (garbage file : List Byte) (job : JobState) :
    JobInside around garbage file job ↔ ∀ key ∈ jobKeys garbage file, startsAlnum key := by
  have accesses := accesses_runDispatches around (jobTrace garbage file).dispatched job
  refine Iff.trans ⟨fun inside index faulted => ?_, fun inside iterations index faulted => ?_⟩
    accesses.inside_iff
  · refine inside (file.length + 1) index ?_
    rw [runJob_eq (dispatchLoop_jobTrace garbage file), faulted]
  · exact inside index (runJob_jobTrace faulted)

/-! ### The accesses of a session -/

/-- No complete request with a terminated key accesses the table outside its array. -/
def SessionInside (place : ServedPlace) (start : SessionStart) (stream : List Byte) : Prop :=
  ∀ index final, nul ∈ final.key →
    ¬ Returns (Session.requestRound place.toSessionPlace) (start.session stream)
      (.fault (.bucket index) true final)

/-- A terminated key is shorter than the array it is read from. -/
theorem ofBuffer_length_lt {buffer : List Byte} (terminated : nul ∈ buffer) :
    (CStr.ofBuffer buffer).length < buffer.length := by
  show (buffer.takeWhile (· ≠ nul)).length < buffer.length
  refine lt_of_le_of_ne (List.takeWhile_prefix _).length_le fun same => ?_
  have whole : buffer.takeWhile (· ≠ nul) = buffer :=
    (List.takeWhile_prefix _).eq_of_length same
  exact (CStr.ofBuffer buffer).noNul (by
    show nul ∈ buffer.takeWhile (· ≠ nul)
    rw [whole]
    exact terminated)

/-- A session whose keys all have buckets faults at no complete request. -/
theorem not_completeFault_of_alnum (place : ServedPlace) (session : Session)
    (reading : session.Reading)
    (alnum : ∀ keyOp ∈ (requestStream session.requests.bytes).1, startsAlnum keyOp.key)
    (fault : Fault) (final : Session) :
    ¬ Returns (Session.requestRound place.toSessionPlace) session (.fault fault true final) := by
  have atEnd : ∀ session : Session, session.Reading → session.requests.bytes = [] →
      ¬ Returns (Session.requestRound place.toSessionPlace) session (.fault fault true final) := by
    intro session reading bytes returns
    cases (Session.settles_atEnd _ reading bytes).unique (returns.settles Session.operations)
  -- behind a response the session goes on, or has ended without a fault
  have answered : ∀ (session after : Session) (given : Fate),
      session.requestRound place.toSessionPlace = given.round after →
      ¬ Returns (Session.requestRound place.toSessionPlace) after (.fault fault true final) →
      ¬ Returns (Session.requestRound place.toSessionPlace) session (.fault fault true final) := by
    intro session after given round later returns
    cases given with
    | goesOn => exact later ((reaches_returns (.single round)).mp returns)
    | closed => cases returns.unique (returns_of_inr round)
    | broken => cases returns.unique (returns_of_inr round)
  induction session, reading using Session.session_induction place.toSessionPlace with
  | ended session reading bytes => exact atEnd session reading bytes
  | ignored session after _ byte rest bytes opcode reads round ih =>
    rw [bytes, requestStream_ignored opcode, ← reads.bytes] at alnum
    exact fun returns => ih alnum ((reaches_returns (.single round)).mp returns)
  | cut session reading request field bytes short =>
    rcases Session.round_cut place.toSessionPlace reading bytes short with
      ⟨key, after, served, round⟩ | ⟨_, _, round⟩
    · exact answered session after _ round (atEnd after served.reading served.bytes)
    · -- the request that is cut short faults, and is not complete
      intro returns
      cases returns.unique (returns_of_inr round)
  | faulted session _ request rest _ bytes enough other _ =>
    rw [bytes, requestStream_onKey (opcodeOf_request request) enough] at alnum
    exact absurd (alnum _ List.mem_cons_self) other
  | served session after _ request rest bytes enough _ served round ih =>
    rw [bytes, requestStream_onKey (opcodeOf_request request) enough, ← served.bytes] at alnum
    exact answered session after _ round
      (ih fun keyOp member => alnum keyOp (List.mem_cons_of_mem _ member))
  | disconnected session reading rest bytes =>
    obtain ⟨after, _, round⟩ := Session.round_disconnected place reading bytes
    intro returns
    split_ifs at round
    · cases returns.unique (returns_of_inr round)
    · cases returns.unique (returns_of_inr round)

theorem sessionInside_of_terminated (place : ServedPlace) (start : SessionStart)
    {stream : List Byte}
    (alnum : ∀ keyOp ∈ (requestStream stream).1, keyOp.key.length < keySize →
      startsAlnum keyOp.key) :
    SessionInside place start stream := by
  intro index final terminated returns
  cases found : (requestStream stream).1.find? (fun keyOp => ¬ startsAlnum keyOp.key) with
  | none =>
    refine not_completeFault_of_alnum place _ (start.healthy stream).toReading
      (fun keyOp member => ?_) _ _ returns
    simpa using List.find?_eq_none.mp found keyOp member
  | some keyOp =>
    obtain ⟨final', key, length, returns'⟩ :=
      Session.session_faults place.toSessionPlace (start.healthy stream) found
    cases returns.unique returns'
    refine absurd (alnum keyOp (List.mem_of_find?_eq_some found) ?_)
      (by simpa using List.find?_some found)
    rw [← key, ← length]
    exact ofBuffer_length_lt terminated

/-! ### From the input to the table -/

/-- Every function of the table refuses the key: it returns, with the table as it was. -/
def Refused (key : CStr) : Prop :=
  ∀ (table : HashTable) (value : CStr) (fd : Fd),
    (∃ code, writePair table key value = .ok (code, table, [])) ∧
    (∃ found, readPair table key = .ok found) ∧
    (∃ code, deletePair table key = .ok (code, table, [])) ∧
    (∃ code, writeSubscription table key fd = .ok (code, table)) ∧
    ∃ code, deleteSubscription table key fd = .ok (code, table)

/-- A key without a bucket is not refused: the first access is made. -/
theorem not_refused {key : CStr} (other : ¬ startsAlnum key) : ¬ Refused key := by
  intro refused
  obtain ⟨_, ⟨found, returned⟩, _⟩ := refused createHashTable key 0
  rw [(accesses_readPair createHashTable key).fault (List.mem_singleton_self key) other] at returned
  cases returned

theorem bucketOf_eq_none {key : CStr} : bucketOf key = none ↔ ¬ startsAlnum key := by
  constructor
  · rintro nowhere alnum
    obtain ⟨index, _, place⟩ := bucket_of_startsAlnum alnum
    rw [place] at nowhere
    cases nowhere
  · intro other
    rw [bucketOf, bucket_of_not_startsAlnum other]
    rfl

/-- What comes into the server: a job's file, or a client's stream of requests; each with what it
meets. -/
inductive Input where
  | jobFile (around : Surroundings) (garbage file : List Byte) (job : JobState)
  | requests (place : ServedPlace) (start : SessionStart) (stream : List Byte)

namespace Input

/-- The keys accepted: those of a job's commands, and the terminated ones of a client's requests. -/
def keys : Input → List CStr
  | jobFile _ garbage file _ => jobKeys garbage file
  | requests _ _ stream =>
    ((requestStream stream).1.map KeyOp.key).filter fun key => key.length < keySize

/-- No access for a key accepted is outside the table. -/
def Inside : Input → Prop
  | jobFile around garbage file job => JobInside around garbage file job
  | requests place start stream => SessionInside place start stream

/-- Every access is inside the table, and a key without a bucket is refused. -/
def Safe (input : Input) : Prop :=
  input.Inside ∧ ∀ key ∈ input.keys, bucketOf key = none → Refused key

theorem inside_of_alnum (input : Input) (alnum : ∀ key ∈ input.keys, startsAlnum key) :
    input.Inside := by
  cases input with
  | jobFile around garbage file job => exact (jobInside_iff around garbage file job).mpr alnum
  | requests place start stream =>
    refine sessionInside_of_terminated place start fun keyOp member terminated => ?_
    refine alnum keyOp.key (List.mem_filter.mpr ⟨List.mem_map_of_mem member, ?_⟩)
    exact decide_eq_true terminated

end Input

/-- **Bucket index safety.** An input is safe exactly when every key it is accepted to have starts
with a letter or a digit. -/
theorem bucket_index_safe_iff (input : Input) :
    input.Safe ↔ ∀ key ∈ input.keys, startsAlnum key := by
  constructor
  · rintro ⟨_, refused⟩ key member
    by_contra other
    exact not_refused other (refused key member (bucketOf_eq_none.mpr other))
  · intro alnum
    refine ⟨input.inside_of_alnum alnum, fun key member nowhere => ?_⟩
    exact absurd (alnum key member) (bucketOf_eq_none.mp nowhere)

/-- `READ [!]` accesses `table[-1]`. -/
theorem readBang_outside :
    ¬ (Input.jobFile ⟨fun _ shared => shared, fun _ => true⟩ []
      (ascii ['R', 'E', 'A', 'D', ' ', '[', '!', ']'] ++ [newline])
      ⟨kvsInit, 0, [], 0, []⟩).Safe := by
  rintro ⟨inside, _⟩
  exact inside 10 (-1) rfl

end Kvs.Server
