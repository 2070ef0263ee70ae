/-
**Frames over a pipe.**

`write_all` sends a frame and `read_all` receives one of a size it is told. Calls of `write` may
move part of what they are asked to, be interrupted, or fail, in any order, and so may calls of
`read`.
`WriteAllExact` and `ReadAllExact` say what each function has done when it returns, and
`FramesExact` what a sequence of frames comes to: the bytes of the pipe hold no boundaries, yet the
frames received are the frames sent, each one whole, up to the first call that failed.

All three follow from the ways a call can end (`readAll_ends`, `writeAll_ends`).
-/

import Kvs.Common.Io

namespace Kvs

/-! ### What one call has done -/

/-- `write_all` returns `1` after emitting the buffer, and `-1` after a proper prefix of it. -/
structure WriteAllExact (buffer : List Byte) (pipe : OutPipe) (errno : Errno) : Prop where
  codes : (writeAll buffer pipe errno).code = 1 ∨ (writeAll buffer pipe errno).code = -1
  whole : (writeAll buffer pipe errno).code = 1 →
    (writeAll buffer pipe errno).pipe.sent = pipe.sent ++ buffer
  failed : (writeAll buffer pipe errno).code = -1 →
    ∃ emitted, emitted <+: buffer ∧ emitted ≠ buffer ∧
      (writeAll buffer pipe errno).pipe.sent = pipe.sent ++ emitted

/-- `read_all`, which is not to stop at an interrupt, returns `1` exactly when it has delivered the
next `size` bytes and left the others, `0` exactly when the stream ended first, and `-1` only on an
error that is no interrupt. What it stored and what it left is the stream. -/
structure ReadAllExact (size : ℕ) (pipe : InPipe) (errno : Errno) : Prop where
  codes : (readAll size none pipe errno).code = 1 ∨ (readAll size none pipe errno).code = 0 ∨
    (readAll size none pipe errno).code = -1
  whole : (readAll size none pipe errno).code = 1 ↔
    size ≤ pipe.bytes.length ∧ (readAll size none pipe errno).buffer = pipe.bytes.take size ∧
      (readAll size none pipe errno).pipe.bytes = pipe.bytes.drop size
  ended : (readAll size none pipe errno).code = 0 ↔
    pipe.bytes.length < size ∧ (readAll size none pipe errno).buffer = pipe.bytes ∧
      (readAll size none pipe errno).pipe.bytes = [] ∧
      ∃ used, Healthy used ∧ pipe.events = used ++ (readAll size none pipe errno).pipe.events
  failed : (readAll size none pipe errno).code = -1 →
    ∃ used error, Healthy used ∧ error ≠ .eintr ∧
      pipe.events = used ++ .fails error :: (readAll size none pipe errno).pipe.events
  ordered : (readAll size none pipe errno).buffer ++ (readAll size none pipe errno).pipe.bytes =
    pipe.bytes

/-- A prefix shorter than the buffer. -/
theorem take_ne_of_short {buffer : List Byte} {count : ℕ} (short : count < buffer.length) :
    buffer.take count ≠ buffer := by
  intro same
  have lengths := congrArg List.length same
  rw [List.length_take_of_le short.le] at lengths
  omega

section WriteEnds

variable {buffer sent : List Byte} {events : List PipeEvent} {errno : Errno} {result : WriteAll}

theorem WriteEnds.codes (ends : WriteEnds buffer sent events errno result) :
    result.code = 1 ∨ result.code = -1 := by
  cases ends with
  | whole => exact .inl rfl
  | failed => exact .inr rfl

theorem WriteEnds.sent_of_whole (ends : WriteEnds buffer sent events errno result)
    (code : result.code = 1) : result.pipe.sent = sent ++ buffer := by
  cases ends with
  | whole => rfl
  | failed => cases code

theorem WriteEnds.sent_of_failed (ends : WriteEnds buffer sent events errno result)
    (code : result.code = -1) :
    ∃ emitted, emitted <+: buffer ∧ emitted ≠ buffer ∧ result.pipe.sent = sent ++ emitted := by
  cases ends with
  | whole => cases code
  | failed healthy schedule real count short =>
    exact ⟨buffer.take count, List.take_prefix count buffer, take_ne_of_short short, rfl⟩

end WriteEnds

/-- **One call of `write_all`.** -/
theorem writeAll_exact (buffer : List Byte) (pipe : OutPipe) (errno : Errno) :
    WriteAllExact buffer pipe errno := by
  have ends := writeAll_ends buffer pipe errno
  exact ⟨ends.codes, ends.sent_of_whole, ends.sent_of_failed⟩

/-- The events used before a failure do not end with it. -/
theorem schedule_not_failed {events used used' left : List PipeEvent} {errno : Errno}
    (healthy : Healthy used) (schedule : events = used ++ left)
    (failure : events = used' ++ .fails errno :: left) (real : errno ≠ .eintr) : False := by
  have whole : used ++ left = used' ++ [.fails errno] ++ left := by
    rw [← schedule, failure, List.append_assoc, List.singleton_append]
  have same : used = used' ++ [.fails errno] := List.append_cancel_right whole
  exact real (healthy.no_error same)

section ReadEnds

variable {size : ℕ} {stream : List Byte} {events : List PipeEvent} {errno : Errno}
  {result : ReadAll}

theorem ReadEnds.codes (ends : ReadEnds size stream events errno result) :
    result.code = 1 ∨ result.code = 0 ∨ result.code = -1 := by
  cases ends with
  | whole => exact .inl rfl
  | ended => exact .inr (.inl rfl)
  | failed => exact .inr (.inr rfl)

theorem ReadEnds.whole_iff (ends : ReadEnds size stream events errno result) :
    result.code = 1 ↔ size ≤ stream.length ∧ result.buffer = stream.take size ∧
      result.pipe.bytes = stream.drop size := by
  constructor
  · intro code
    cases ends with
    | whole healthy schedule undisturbed enough => exact ⟨enough, rfl, rfl⟩
    | ended => cases code
    | failed => cases code
  · rintro ⟨enough, stored, _⟩
    cases ends with
    | whole => rfl
    | ended healthy schedule undisturbed short => exact absurd enough (not_le.mpr short)
    | failed healthy schedule real count short there =>
      have lengths := congrArg List.length stored
      rw [List.length_take_of_le there, List.length_take_of_le enough] at lengths
      exact absurd lengths short.ne

theorem ReadEnds.ended_iff (ends : ReadEnds size stream events errno result) :
    result.code = 0 ↔ stream.length < size ∧ result.buffer = stream ∧ result.pipe.bytes = [] ∧
      ∃ used, Healthy used ∧ events = used ++ result.pipe.events := by
  constructor
  · intro code
    cases ends with
    | whole => cases code
    | ended healthy schedule undisturbed short => exact ⟨short, rfl, rfl, _, healthy, schedule⟩
    | failed => cases code
  · rintro ⟨short, _, _, used, healthy', schedule'⟩
    cases ends with
    | whole healthy schedule undisturbed enough => exact absurd enough (not_le.mpr short)
    | ended => rfl
    | failed healthy schedule real =>
      exact (schedule_not_failed healthy' schedule' schedule real).elim

theorem ReadEnds.error_of_failed (ends : ReadEnds size stream events errno result)
    (code : result.code = -1) :
    ∃ used error, Healthy used ∧ error ≠ .eintr ∧
      events = used ++ .fails error :: result.pipe.events := by
  cases ends with
  | whole => cases code
  | ended => cases code
  | failed healthy schedule real => exact ⟨_, _, healthy, real, schedule⟩

theorem ReadEnds.ordered (ends : ReadEnds size stream events errno result) :
    result.buffer ++ result.pipe.bytes = stream := by
  cases ends with
  | whole => exact List.take_append_drop size stream
  | ended => exact List.append_nil stream
  | failed _ _ _ count => exact List.take_append_drop count stream

end ReadEnds

/-- **One call of `read_all`.** -/
theorem readAll_exact (size : ℕ) (pipe : InPipe) (errno : Errno) :
    ReadAllExact size pipe errno := by
  have ends := readAll_ends size pipe errno
  exact ⟨ends.codes, ends.whole_iff, ends.ended_iff, ends.error_of_failed, ends.ordered⟩

/-- A frame at the front of the stream is received whole, unless the call fails. -/
theorem readAll_frame (frame rest : List Byte) (events : List PipeEvent) (errno : Errno) :
    (∃ events' errno', readAll frame.length none ⟨frame ++ rest, events⟩ errno =
        ⟨1, frame, ⟨rest, events'⟩, none, errno'⟩) ∨
      (readAll frame.length none ⟨frame ++ rest, events⟩ errno).code = -1 := by
  have ends := readAll_ends frame.length ⟨frame ++ rest, events⟩ errno
  generalize readAll frame.length none ⟨frame ++ rest, events⟩ errno = result at ends ⊢
  cases ends with
  | whole =>
    rw [List.take_left, List.drop_left]
    exact .inl ⟨_, _, rfl⟩
  | ended healthy schedule undisturbed short =>
    rw [List.length_append] at short
    omega
  | failed => exact .inr rfl

/-! ### Sequences of frames -/

/-- What a sequence of calls has sent, or received: the frames whose call returned `1`, and the code
of the last call. -/
structure FrameCalls (Pipe : Type) where
  frames : List (List Byte)
  code : Int
  pipe : Pipe
deriving DecidableEq

/-- `write_all` of one frame after another, as long as it returns `1`. -/
def sendFrames : List (List Byte) → OutPipe → Errno → FrameCalls OutPipe
  | [], pipe, _ => ⟨[], 1, pipe⟩
  | frame :: frames, pipe, errno =>
    let result := writeAll frame pipe errno
    if result.code = 1 then
      let more := sendFrames frames result.pipe result.errno
      { more with frames := frame :: more.frames }
    else ⟨[], result.code, result.pipe⟩

/-- `read_all` of frames of these sizes, as long as it returns `1`. -/
def receiveFrames : List ℕ → InPipe → Errno → FrameCalls InPipe
  | [], pipe, _ => ⟨[], 1, pipe⟩
  | size :: sizes, pipe, errno =>
    let result := readAll size none pipe errno
    if result.code = 1 then
      let more := receiveFrames sizes result.pipe result.errno
      { more with frames := result.buffer :: more.frames }
    else ⟨[], result.code, result.pipe⟩

/-- What a failed call emitted of the first frame that is left. -/
def Torn : List (List Byte) → List Byte → Prop
  | [], torn => torn = []
  | frame :: _, torn => torn <+: frame ∧ torn ≠ frame

/-- **Sending frames**: the pipe holds those sent whole, and part of the next one when its call
failed. -/
theorem sendFrames_stream (frames : List (List Byte)) :
    ∀ (pipe : OutPipe) (errno : Errno), ∃ left torn,
      frames = (sendFrames frames pipe errno).frames ++ left ∧ Torn left torn ∧
        (sendFrames frames pipe errno).pipe.sent =
          pipe.sent ++ ((sendFrames frames pipe errno).frames.flatten ++ torn) ∧
        ((sendFrames frames pipe errno).code = 1 → left = []) := by
  induction frames with
  | nil => exact fun pipe errno => ⟨[], [], rfl, rfl, (List.append_nil _).symm, fun _ => rfl⟩
  | cons frame frames ih =>
    intro pipe errno
    have exact := writeAll_exact frame pipe errno
    rw [sendFrames]
    dsimp only
    by_cases sent : (writeAll frame pipe errno).code = 1
    · obtain ⟨left, torn, split, isTorn, stream, whole⟩ :=
        ih (writeAll frame pipe errno).pipe (writeAll frame pipe errno).errno
      rw [if_pos sent]
      refine ⟨left, torn, congrArg (frame :: ·) split, isTorn, ?_, whole⟩
      rw [stream, exact.whole sent, List.flatten_cons]
      simp only [List.append_assoc]
    · obtain ⟨emitted, part, proper, stream⟩ := exact.failed (exact.codes.resolve_left sent)
      rw [if_neg sent]
      exact ⟨frame :: frames, emitted, rfl, ⟨part, proper⟩, stream, fun code => absurd code sent⟩

/-- **Receiving frames** off a stream that holds some whole ones and part of the next. -/
theorem receiveFrames_stream {left : List (List Byte)} {torn : List Byte} (isTorn : Torn left torn)
    (whole : List (List Byte)) :
    ∀ (events : List PipeEvent) (errno : Errno),
      (receiveFrames ((whole ++ left).map List.length) ⟨whole.flatten ++ torn, events⟩
          errno).frames <+: whole ∧
        ((receiveFrames ((whole ++ left).map List.length) ⟨whole.flatten ++ torn, events⟩
          errno).code ≠ -1 →
        (receiveFrames ((whole ++ left).map List.length) ⟨whole.flatten ++ torn, events⟩
          errno).frames = whole) := by
  induction whole with
  | nil =>
    intro events errno
    cases left with
    | nil => exact ⟨List.prefix_rfl, fun _ => rfl⟩
    | cons frame left =>
      -- the part of the next frame is too short for its size
      have short : torn.length < frame.length :=
        lt_of_le_of_ne isTorn.1.length_le fun same => isTorn.2 (isTorn.1.eq_of_length same)
      have refused : ¬ (readAll frame.length none ⟨torn, events⟩ errno).code = 1 := by
        rw [(readAll_exact frame.length ⟨torn, events⟩ errno).whole]
        exact fun enough => absurd enough.1 (not_le.mpr short)
      rw [List.nil_append, List.flatten_nil, List.nil_append, List.map_cons, receiveFrames]
      dsimp only
      rw [if_neg refused]
      exact ⟨List.prefix_rfl, fun _ => rfl⟩
  | cons frame whole ih =>
    intro events errno
    have stream : (frame :: whole).flatten ++ torn = frame ++ (whole.flatten ++ torn) := by
      rw [List.flatten_cons, List.append_assoc]
    rw [stream, List.cons_append, List.map_cons, receiveFrames]
    obtain ⟨events', errno', received⟩ | failed :=
      readAll_frame frame (whole.flatten ++ torn) events errno
    · rw [received]
      obtain ⟨inOrder, complete⟩ := ih events' errno'
      exact ⟨List.cons_prefix_cons.mpr ⟨rfl, inOrder⟩,
        fun code => congrArg (frame :: ·) (complete code)⟩
    · dsimp only
      rw [if_neg (by rw [failed]; decide)]
      exact ⟨List.nil_prefix, fun code => absurd failed code⟩

/-- Harmless calls send every frame. -/
theorem sendFrames_harmless (frames : List (List Byte)) :
    ∀ (pipe : OutPipe) (errno : Errno), Healthy pipe.events →
      (sendFrames frames pipe errno).code = 1 := by
  induction frames with
  | nil => exact fun pipe errno _ => rfl
  | cons frame frames ih =>
    intro pipe errno healthy
    obtain ⟨events, errno', healthy', _, written⟩ := writeAll_harmless healthy frame errno
    rw [sendFrames, written]
    exact ih ⟨pipe.sent ++ frame, events⟩ errno' healthy'

/-- Harmless calls receive frames, or find the end of the stream. -/
theorem receiveFrames_harmless (sizes : List ℕ) :
    ∀ (pipe : InPipe) (errno : Errno), Healthy pipe.events →
      (receiveFrames sizes pipe errno).code ≠ -1 := by
  induction sizes with
  | nil => exact fun pipe errno _ code => by cases code
  | cons size sizes ih =>
    intro pipe errno healthy
    rw [receiveFrames]
    by_cases enough : size ≤ pipe.bytes.length
    · obtain ⟨events, errno', healthy', _, got⟩ := readAll_enough healthy enough errno
      rw [got]
      exact ih ⟨pipe.bytes.drop size, events⟩ errno' healthy'
    · obtain ⟨events, errno', _, _, got⟩ := readAll_short healthy (not_le.mp enough) errno
      rw [got]
      exact fun code => by cases code

/-- The frames sent through a new pipe, and received with their sizes. -/
def exchanged (frames : List (List Byte)) (writes reads : List PipeEvent)
    (errno errno' : Errno) : FrameCalls InPipe :=
  receiveFrames (frames.map List.length) ⟨(sendFrames frames ⟨[], writes⟩ errno).pipe.sent, reads⟩
    errno'

/-- **Frames sent and received.** Those written whole are a prefix of the frames, and those received
a prefix of them: all of them, unless a call failed. When every call is at most interrupted, every
frame is received. -/
structure FramesExact (frames : List (List Byte)) (writes reads : List PipeEvent)
    (errno errno' : Errno) : Prop where
  sent : (sendFrames frames ⟨[], writes⟩ errno).frames <+: frames
  allSent : (sendFrames frames ⟨[], writes⟩ errno).code = 1 →
    (sendFrames frames ⟨[], writes⟩ errno).frames = frames
  received : (exchanged frames writes reads errno errno').frames <+:
    (sendFrames frames ⟨[], writes⟩ errno).frames
  allReceived : (exchanged frames writes reads errno errno').code ≠ -1 →
    (exchanged frames writes reads errno errno').frames =
      (sendFrames frames ⟨[], writes⟩ errno).frames
  delivered : Healthy writes → Healthy reads →
    (exchanged frames writes reads errno errno').frames = frames

theorem frames_exact (frames : List (List Byte)) (writes reads : List PipeEvent)
    (errno errno' : Errno) : FramesExact frames writes reads errno errno' := by
  obtain ⟨left, torn, split, isTorn, stream, whole⟩ :=
    sendFrames_stream frames ⟨[], writes⟩ errno
  rw [List.nil_append] at stream
  obtain ⟨inOrder, complete⟩ := receiveFrames_stream isTorn
    (sendFrames frames ⟨[], writes⟩ errno).frames reads errno'
  rw [← split, ← stream] at inOrder complete
  have allSent : (sendFrames frames ⟨[], writes⟩ errno).code = 1 →
      (sendFrames frames ⟨[], writes⟩ errno).frames = frames := by
    intro code
    rw [whole code, List.append_nil] at split
    exact split.symm
  refine ⟨⟨left, split.symm⟩, allSent, inOrder, complete, fun healthyWrites healthyReads => ?_⟩
  exact (complete (receiveFrames_harmless _ _ errno' healthyReads)).trans
    (allSent (sendFrames_harmless frames _ errno healthyWrites))

/-- **Whole frames under any schedule**: what `write_all`, `read_all` and sequences of both do. -/
theorem io_exact :
    (∀ buffer pipe errno, WriteAllExact buffer pipe errno) ∧
      (∀ size pipe errno, ReadAllExact size pipe errno) ∧
      ∀ frames writes reads errno errno', FramesExact frames writes reads errno errno' :=
  ⟨writeAll_exact, readAll_exact, frames_exact⟩

end Kvs
