/-
**Reading and writing pipes (`common/io.c`).**

A call of `read` or `write` on a pipe moves some bytes or fails with an error number. What each
call does is a `PipeEvent`; a pipe carries the events of its coming calls, and once they are used up
every call moves as many bytes as it is asked to and can. Reading from an empty pipe gives no bytes:
its writers have closed it.

`ReadEnds` and `WriteEnds` list the ways `read_all` and `write_all` end, whatever their calls do.
Events that only split the bytes or interrupt a call (`Harmless`) make no difference to them:
`readAll_enough`, `readAll_short` and `writeAll_harmless` say what is left to see.
-/

import Kvs.Basic

namespace Kvs

/-! ### Pipes -/

/-- `errno`. A `write` that finds no reader raises `SIGPIPE` before it fails with `EPIPE`. -/
inductive Errno where
  | zero | eintr | ebadf | epipe | other
deriving DecidableEq

/-- What one call of `read` or `write` does. -/
inductive PipeEvent where
  /-- It moves bytes: at least one, and at most one more than stated. -/
  | moves (more : ℕ)
  /-- It fails, with what is in `errno` once the failure is reported. -/
  | fails (errno : Errno)
deriving DecidableEq

/-- The call moves bytes, or is interrupted. -/
def PipeEvent.Harmless : PipeEvent → Prop
  | .moves _ => True
  | .fails errno => errno = .eintr

/-- An event that is harmless. -/
abbrev Delivery := { event : PipeEvent // event.Harmless }

/-- The reading end of a pipe. -/
structure InPipe where
  bytes : List Byte
  events : List PipeEvent
deriving DecidableEq

/-- The writing end of a pipe. -/
structure OutPipe where
  sent : List Byte
  events : List PipeEvent
deriving DecidableEq

/-! ### `read_all` -/

/-- What `read_all` returns and leaves. -/
structure ReadAll where
  code : Int
  /-- The bytes stored at the front of the buffer. -/
  buffer : List Byte
  pipe : InPipe
  /-- `*intr`, none for a `NULL` pointer. -/
  intr : Option Bool
  errno : Errno
deriving DecidableEq

/-- The loop of `read_all`, by the events of its calls of `read`. -/
def readAllLoop (size : ℕ) :
    List PipeEvent → List Byte → List Byte → Option Bool → Errno → ReadAll
  | [], bytes, buffer, intr, errno =>
    -- one more call, and a second one that finds the end when the first does not give enough
    let buffer' := buffer ++ bytes.take (size - buffer.length)
    ⟨if buffer'.length < size then 0 else 1, buffer', ⟨bytes.drop (size - buffer.length), []⟩, intr,
      errno⟩
  | event :: events, bytes, buffer, intr, errno =>
    if size ≤ buffer.length then ⟨1, buffer, ⟨bytes, event :: events⟩, intr, errno⟩
    else match event with
      | .moves more =>
        let result := bytes.take (min (size - buffer.length) (more + 1))
        if result = [] then ⟨0, buffer, ⟨bytes, events⟩, intr, errno⟩
        else readAllLoop size events (bytes.drop result.length) (buffer ++ result) intr errno
      | .fails errno =>
        if errno = .eintr then
          match intr with
          | none => readAllLoop size events bytes buffer none errno
          | some _ =>
            if buffer = [] then ⟨-1, buffer, ⟨bytes, events⟩, some true, errno⟩
            else readAllLoop size events bytes buffer (some true) errno
        else ⟨-1, buffer, ⟨bytes, events⟩, intr, errno⟩

/-- `read_all`. -/
def readAll (size : ℕ) (intr : Option Bool) (pipe : InPipe) (errno : Errno) : ReadAll :=
  if intr = some true then ⟨-1, [], pipe, intr, errno⟩
  else readAllLoop size pipe.events pipe.bytes [] intr errno

/-! ### `write_all` -/

/-- What `write_all` returns and leaves. -/
structure WriteAll where
  code : Int
  pipe : OutPipe
  errno : Errno
deriving DecidableEq

/-- The loop of `write_all`, by the events of its calls of `write`; `left` is not written yet. -/
def writeAllLoop : List PipeEvent → List Byte → List Byte → Errno → WriteAll
  | [], left, sent, errno => ⟨1, ⟨sent ++ left, []⟩, errno⟩
  | event :: events, left, sent, errno =>
    if left = [] then ⟨1, ⟨sent, event :: events⟩, errno⟩
    else match event with
      | .moves more =>
        writeAllLoop events (left.drop (more + 1)) (sent ++ left.take (more + 1)) errno
      | .fails errno =>
        if errno = .eintr then writeAllLoop events left sent errno
        else ⟨-1, ⟨sent, events⟩, errno⟩

/-- `write_all`. -/
def writeAll (buffer : List Byte) (pipe : OutPipe) (errno : Errno) : WriteAll :=
  writeAllLoop pipe.events buffer pipe.sent errno

/-! ### Operation codes -/

/-- `enum Code`. -/
inductive Code where
  | connect | disconnect | subscribe | unsubscribe | invalid
deriving DecidableEq

/-- `get_code`. -/
def getCode (code : Byte) : Code :=
  if code = '1'.toUInt8 then .connect
  else if code = '2'.toUInt8 then .disconnect
  else if code = '3'.toUInt8 then .subscribe
  else if code = '4'.toUInt8 then .unsubscribe
  else .invalid

/-- `get_code_string`. -/
def getCodeString : Code → Byte
  | .connect => '1'.toUInt8
  | .disconnect => '2'.toUInt8
  | .subscribe => '3'.toUInt8
  | .unsubscribe => '4'.toUInt8
  | .invalid => '5'.toUInt8

/-- A code is read back from the character it is sent as. -/
theorem getCode_getCodeString (code : Code) : getCode (getCodeString code) = code := by
  cases code <;> decide

/-! ### Harmless events -/

/-- No call on the pipe fails otherwise than by an interrupt. -/
def Healthy (events : List PipeEvent) : Prop := ∀ event ∈ events, event.Harmless

theorem healthy_nil : Healthy [] := fun _ member => nomatch member

theorem healthy_deliveries (deliveries : List Delivery) : Healthy (deliveries.map Subtype.val) := by
  intro event member
  obtain ⟨delivery, _, rfl⟩ := List.mem_map.mp member
  exact delivery.2

/-- `errno` after calls that were at most interrupted. -/
def Undisturbed (before after : Errno) : Prop := after = before ∨ after = .eintr

theorem Undisturbed.refl (errno : Errno) : Undisturbed errno errno := Or.inl rfl

theorem Undisturbed.trans {first second third : Errno} (one : Undisturbed first second)
    (two : Undisturbed second third) : Undisturbed first third := by
  rcases two with rfl | rfl
  · exact one
  · exact Or.inr rfl

theorem Undisturbed.ne_ebadf {before after : Errno} (undisturbed : Undisturbed before after)
    (good : before ≠ .ebadf) : after ≠ .ebadf := by
  rcases undisturbed with rfl | rfl
  · exact good
  · exact fun same => by cases same

/-- The test of the `while` loop of `read_all`. -/
theorem readAllLoop_full {size : ℕ} {buffer : List Byte} (full : size ≤ buffer.length)
    (event : PipeEvent) (events : List PipeEvent) (bytes : List Byte) (intr : Option Bool)
    (errno : Errno) :
    readAllLoop size (event :: events) bytes buffer intr errno =
      ⟨1, buffer, ⟨bytes, event :: events⟩, intr, errno⟩ := by
  cases event <;> cases intr <;> rw [readAllLoop, if_pos full]

/-! ### How the calls end -/

/-- How `read_all` ends on a stream, whatever the calls of `read` do: with the bytes asked for, at
the end of the stream, or by an error that is no interrupt. The calls before are harmless. -/
inductive ReadEnds (size : ℕ) (stream : List Byte) (events : List PipeEvent) (errno : Errno) :
    ReadAll → Prop where
  | whole {used left : List PipeEvent} {errno' : Errno} (healthy : Healthy used)
      (schedule : events = used ++ left) (undisturbed : Undisturbed errno errno')
      (enough : size ≤ stream.length) :
      ReadEnds size stream events errno
        ⟨1, stream.take size, ⟨stream.drop size, left⟩, none, errno'⟩
  | ended {used left : List PipeEvent} {errno' : Errno} (healthy : Healthy used)
      (schedule : events = used ++ left) (undisturbed : Undisturbed errno errno')
      (short : stream.length < size) :
      ReadEnds size stream events errno ⟨0, stream, ⟨[], left⟩, none, errno'⟩
  | failed {used left : List PipeEvent} {errno' : Errno} (healthy : Healthy used)
      (schedule : events = used ++ .fails errno' :: left) (real : errno' ≠ .eintr) (count : ℕ)
      (short : count < size) (there : count ≤ stream.length) :
      ReadEnds size stream events errno
        ⟨-1, stream.take count, ⟨stream.drop count, left⟩, none, errno'⟩

/-- How `write_all` ends: with the whole buffer, or by an error with part of it. -/
inductive WriteEnds (buffer sent : List Byte) (events : List PipeEvent) (errno : Errno) :
    WriteAll → Prop where
  | whole {used left : List PipeEvent} {errno' : Errno} (healthy : Healthy used)
      (schedule : events = used ++ left) (undisturbed : Undisturbed errno errno') :
      WriteEnds buffer sent events errno ⟨1, ⟨sent ++ buffer, left⟩, errno'⟩
  | failed {used left : List PipeEvent} {errno' : Errno} (healthy : Healthy used)
      (schedule : events = used ++ .fails errno' :: left) (real : errno' ≠ .eintr) (count : ℕ)
      (short : count < buffer.length) :
      WriteEnds buffer sent events errno ⟨-1, ⟨sent ++ buffer.take count, left⟩, errno'⟩

theorem harmless_moves (more : ℕ) : (PipeEvent.moves more).Harmless := trivial

theorem harmless_fails {errno : Errno} (interrupted : errno = .eintr) :
    (PipeEvent.fails errno).Harmless := interrupted

theorem Healthy.cons {event : PipeEvent} {events : List PipeEvent} (harmless : event.Harmless)
    (healthy : Healthy events) : Healthy (event :: events) :=
  List.forall_mem_cons.mpr ⟨harmless, healthy⟩

/-- `errno` after a harmless call. -/
def PipeEvent.errnoAfter (errno : Errno) : PipeEvent → Errno
  | .moves _ => errno
  | .fails errno => errno

theorem PipeEvent.Harmless.undisturbed {event : PipeEvent} (harmless : event.Harmless)
    (errno : Errno) : Undisturbed errno (event.errnoAfter errno) := by
  cases event with
  | moves more => exact Undisturbed.refl errno
  | fails errno' => exact Or.inr harmless

/-- One harmless call more in front. -/
theorem ReadEnds.cons {size : ℕ} {stream : List Byte} {event : PipeEvent}
    {events : List PipeEvent} {errno : Errno} {result : ReadAll} (harmless : event.Harmless)
    (ends : ReadEnds size stream events (event.errnoAfter errno) result) :
    ReadEnds size stream (event :: events) errno result := by
  have first := harmless.undisturbed errno
  cases ends with
  | whole healthy schedule undisturbed enough =>
    exact .whole (healthy.cons harmless) (congrArg _ schedule) (first.trans undisturbed) enough
  | ended healthy schedule undisturbed short =>
    exact .ended (healthy.cons harmless) (congrArg _ schedule) (first.trans undisturbed) short
  | failed healthy schedule real count short there =>
    exact .failed (healthy.cons harmless) (congrArg (event :: ·) schedule) real count short there

theorem WriteEnds.cons {buffer sent : List Byte} {event : PipeEvent} {events : List PipeEvent}
    {errno : Errno} {result : WriteAll} (harmless : event.Harmless)
    (ends : WriteEnds buffer sent events (event.errnoAfter errno) result) :
    WriteEnds buffer sent (event :: events) errno result := by
  have first := harmless.undisturbed errno
  cases ends with
  | whole healthy schedule undisturbed =>
    exact .whole (healthy.cons harmless) (congrArg _ schedule) (first.trans undisturbed)
  | failed healthy schedule real count short =>
    exact .failed (healthy.cons harmless) (congrArg (event :: ·) schedule) real count short

/-- **The loop of `read_all`**, entered with the first `count` bytes of the stream stored. -/
theorem readAllLoop_ends {size : ℕ} {stream : List Byte} (events : List PipeEvent) :
    ∀ (count : ℕ) (errno : Errno), count ≤ size → count ≤ stream.length →
      ReadEnds size stream events errno
        (readAllLoop size events (stream.drop count) (stream.take count) none errno) := by
  induction events with
  | nil =>
    intro count errno room there
    have stored : stream.take count ++ (stream.drop count).take (size - count) =
        stream.take size := by
      rw [← List.take_add, Nat.add_sub_cancel' room]
    have left : (stream.drop count).drop (size - count) = stream.drop size := by
      rw [List.drop_drop, Nat.add_sub_cancel' room]
    rw [readAllLoop, List.length_take_of_le there, stored, left]
    by_cases enough : size ≤ stream.length
    · rw [if_neg (not_lt.mpr (List.length_take_of_le enough).ge)]
      exact .whole healthy_nil rfl (.refl errno) enough
    · have short := not_le.mp enough
      rw [List.take_of_length_le short.le, List.drop_of_length_le short.le, if_pos short]
      exact .ended healthy_nil rfl (.refl errno) short
  | cons event events ih =>
    intro count errno room there
    have length : (stream.take count).length = count := List.length_take_of_le there
    by_cases full : size ≤ count
    · obtain rfl := Nat.le_antisymm full room
      rw [readAllLoop_full length.ge]
      exact .whole healthy_nil rfl (.refl errno) there
    have notFull : ¬ size ≤ (stream.take count).length := by rwa [length]
    cases event with
    | moves more =>
      rw [readAllLoop, if_neg notFull, length]
      dsimp only
      by_cases empty : count = stream.length
      · subst empty
        rw [List.drop_length, List.take_nil, if_pos rfl, List.take_length]
        exact .ended (healthy_nil.cons (harmless_moves more)) rfl (.refl errno)
          (not_le.mp full)
      -- the call moves `moved` bytes, at least one
      obtain ⟨moved, same, least, roomy, enough⟩ : ∃ moved,
          (stream.drop count).take (min (size - count) (more + 1)) =
              (stream.drop count).take moved ∧
            0 < moved ∧ count + moved ≤ size ∧ count + moved ≤ stream.length := by
        refine ⟨min (min (size - count) (more + 1)) (stream.drop count).length,
          List.take_eq_take_min, ?_⟩
        rw [List.length_drop]
        omega
      have movedLength : ((stream.drop count).take moved).length = moved :=
        List.length_take_of_le (by rw [List.length_drop]; omega)
      have nonempty : (stream.drop count).take moved ≠ [] := by
        rw [← List.length_pos_iff, movedLength]
        exact least
      rw [same, if_neg nonempty, movedLength, ← List.take_add, List.drop_drop]
      exact (ih (count + moved) errno roomy enough).cons (harmless_moves more)
    | fails errno' =>
      rw [readAllLoop, if_neg notFull]
      by_cases interrupted : errno' = .eintr
      · rw [if_pos interrupted]
        exact (ih count errno' room there).cons (harmless_fails interrupted)
      · rw [if_neg interrupted]
        exact .failed healthy_nil rfl interrupted count (not_le.mp full) there

/-- **`read_all`**, which is not to stop at an interrupt, ends in one of these ways. -/
theorem readAll_ends (size : ℕ) (pipe : InPipe) (errno : Errno) :
    ReadEnds size pipe.bytes pipe.events errno (readAll size none pipe errno) := by
  rw [readAll, if_neg (by simp)]
  exact readAllLoop_ends pipe.events 0 errno (Nat.zero_le _) (Nat.zero_le _)

/-- The loop of `write_all`, entered with the first `count` bytes written. -/
theorem writeAllLoop_ends (buffer sent : List Byte) (events : List PipeEvent) :
    ∀ (count : ℕ) (errno : Errno), WriteEnds buffer sent events errno
      (writeAllLoop events (buffer.drop count) (sent ++ buffer.take count) errno) := by
  have written : ∀ count, sent ++ buffer.take count ++ buffer.drop count = sent ++ buffer := by
    intro count
    rw [List.append_assoc, List.take_append_drop]
  induction events with
  | nil =>
    intro count errno
    rw [writeAllLoop, written]
    exact .whole healthy_nil rfl (.refl errno)
  | cons event events ih =>
    intro count errno
    by_cases done : buffer.drop count = []
    · have whole : sent ++ buffer.take count = sent ++ buffer := by
        rw [← written count, done, List.append_nil]
      rw [whole]
      cases event <;> rw [writeAllLoop, if_pos done] <;>
        exact .whole healthy_nil rfl (.refl errno)
    cases event with
    | moves more =>
      rw [writeAllLoop, if_neg done, List.append_assoc, ← List.take_add, List.drop_drop]
      exact (ih (count + (more + 1)) errno).cons (harmless_moves more)
    | fails errno' =>
      rw [writeAllLoop, if_neg done]
      by_cases interrupted : errno' = .eintr
      · rw [if_pos interrupted]
        exact (ih count errno').cons (harmless_fails interrupted)
      · have short : count < buffer.length := by
          rwa [List.drop_eq_nil_iff, not_le] at done
        rw [if_neg interrupted]
        exact .failed healthy_nil rfl interrupted count short

/-- **`write_all`** ends in one of these ways. -/
theorem writeAll_ends (buffer : List Byte) (pipe : OutPipe) (errno : Errno) :
    WriteEnds buffer pipe.sent pipe.events errno (writeAll buffer pipe errno) := by
  have ends := writeAllLoop_ends buffer pipe.sent pipe.events 0 errno
  rwa [List.take_zero, List.append_nil, List.drop_zero] at ends

/-! ### Under harmless events -/

/-- What is left of harmless events. -/
theorem Healthy.left {events used left : List PipeEvent} (healthy : Healthy events)
    (schedule : events = used ++ left) : Healthy left :=
  fun event member => healthy event (schedule ▸ List.mem_append_right used member)

/-- Harmless events hold no other error. -/
theorem Healthy.no_error {events used left : List PipeEvent} {errno : Errno}
    (healthy : Healthy events) (schedule : events = used ++ .fails errno :: left) :
    errno = .eintr :=
  healthy (.fails errno) (schedule ▸ List.mem_append_right used List.mem_cons_self)

/-- **Enough bytes**: `read_all` returns `1` with the first ones. -/
theorem readAll_enough {pipe : InPipe} (healthy : Healthy pipe.events) {size : ℕ}
    (enough : size ≤ pipe.bytes.length) (errno : Errno) :
    ∃ events errno', Healthy events ∧ Undisturbed errno errno' ∧
      readAll size none pipe errno =
        ⟨1, pipe.bytes.take size, ⟨pipe.bytes.drop size, events⟩, none, errno'⟩ := by
  have ends := readAll_ends size pipe errno
  generalize readAll size none pipe errno = result at ends
  cases ends with
  | whole _ schedule undisturbed _ => exact ⟨_, _, healthy.left schedule, undisturbed, rfl⟩
  | ended _ _ _ short => exact absurd enough (not_le.mpr short)
  | failed _ schedule real => exact absurd (healthy.no_error schedule) real

/-- **Too few bytes**: `read_all` returns `0`, with those there are at the front of the buffer. -/
theorem readAll_short {pipe : InPipe} (healthy : Healthy pipe.events) {size : ℕ}
    (short : pipe.bytes.length < size) (errno : Errno) :
    ∃ events errno', Healthy events ∧ Undisturbed errno errno' ∧
      readAll size none pipe errno = ⟨0, pipe.bytes, ⟨[], events⟩, none, errno'⟩ := by
  have ends := readAll_ends size pipe errno
  generalize readAll size none pipe errno = result at ends
  cases ends with
  | whole _ _ _ enough => exact absurd enough (not_le.mpr short)
  | ended _ schedule undisturbed _ => exact ⟨_, _, healthy.left schedule, undisturbed, rfl⟩
  | failed _ schedule real => exact absurd (healthy.no_error schedule) real

/-- `write_all` writes everything. -/
theorem writeAll_harmless {pipe : OutPipe} (healthy : Healthy pipe.events) (buffer : List Byte)
    (errno : Errno) :
    ∃ events errno', Healthy events ∧ Undisturbed errno errno' ∧
      writeAll buffer pipe errno = ⟨1, ⟨pipe.sent ++ buffer, events⟩, errno'⟩ := by
  have ends := writeAll_ends buffer pipe errno
  generalize writeAll buffer pipe errno = result at ends
  cases ends with
  | whole _ schedule undisturbed => exact ⟨_, _, healthy.left schedule, undisturbed, rfl⟩
  | failed _ schedule real => exact absurd (healthy.no_error schedule) real

end Kvs
