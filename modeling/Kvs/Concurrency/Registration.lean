/-
**No connection is lost, doubled or overtaken.**

The host and the workers interleave in any way. `registration_fifo` reads off the bounded buffer
what they do with the ring: the path triples the workers copy out are, in the order of their
critical sections, a prefix of the triples the host stored; no slot is stored into before it has
been copied out, and none is copied out twice.
-/

import Kvs.Server.Registration

namespace Kvs.Server

open BoundedBuffer

/-- A turn is a step of the bounded buffer, or a frame that is not a connect. -/
theorem fire_turn {turn : Turn} {ring next : Registration} (fired : turn.fire ring = some next) :
    next = ring ∨ ∃ event, BoundedBuffer.fire assingPipeData copyOut event ring = some next := by
  cases turn with
  | read frame =>
    rw [Turn.fire] at fired
    split at fired
    · split at fired
      · exact Or.inr ⟨_, fired⟩
      · exact Or.inl (Option.some.inj fired).symm
    · cases fired
  | host => exact Or.inr ⟨.producer, fired⟩
  | worker thread => exact Or.inr ⟨.consumer thread, fired⟩

/-- The ring keeps the buffer's invariant, and every triple it stores survives being copied. -/
structure RingInvariant (ring : Registration) : Prop where
  buffer : BoundedBuffer.Invariant copyOut ring
  stored : ∀ item ∈ storedItems ring.history, copyOut item = item

theorem registrationInit_invariant (memory : Fin maxClients → PipeData) :
    RingInvariant (registrationInit memory) :=
  ⟨initially_invariant copyOut memory, fun _ member => absurd member List.not_mem_nil⟩

/-- **The step lemma.** -/
theorem turn_keeps {turn : Turn} {ring next : Registration} (inv : RingInvariant ring)
    (fired : turn.fire ring = some next) : RingInvariant next := by
  rcases fire_turn fired with rfl | ⟨event, fired⟩
  · exact inv
  refine ⟨fire_keeps inv.buffer fired, ?_⟩
  rcases fire_history fired with same | ⟨slot, input, same⟩ | ⟨slot, copy, same⟩
  · rw [same]
    exact inv.stored
  · rw [same, storedItems_stored]
    intro item member
    rcases List.mem_append.mp member with member | member
    · exact inv.stored item member
    · rw [List.mem_singleton.mp member]
      exact copyOut_assingPipeData input
  · rw [same, storedItems_copied]
    exact inv.stored

/-- **First in, first out**, for every interleaving of the host with the workers. -/
theorem registration_fifo (memory : Fin maxClients → PipeData) (turns : List Turn)
    (ring : Registration)
    (ran : Interleaving.run Turn.fire turns (registrationInit memory) = some ring) :
    copiedItems ring.history <+: storedItems ring.history ∧ InTurn ring.history := by
  have inv := Interleaving.run_keeps (fun _ _ _ inv fired => turn_keeps inv fired)
    (registrationInit_invariant memory) ran
  refine ⟨?_, inv.buffer.turns⟩
  have copies := inv.buffer.copies
  rwa [List.map_congr_left inv.stored, List.map_id'] at copies

/-- A connect frame of which every path is this letter, forty times. -/
def frameOf (letter : Char) : ConnectFrame :=
  ⟨'1'.toUInt8 :: List.replicate 120 letter.toUInt8, by simp [connectSize, maxPipePathLength]⟩

/-- The host reads a connect frame and stores its paths without waiting. -/
def hostStores (letter : Char) : List Turn := .read (frameOf letter) :: List.replicate 6 .host

/-- Three clients connect. The ring is full when the third does; the workers wait for the lock
together, and the third triple goes where the first was. -/
def threeConnections : List Turn :=
  hostStores 'a' ++ hostStores 'b' ++
    [.worker 0, .worker 1, .worker 1, .read (frameOf 'c'), .worker 1, .worker 1, .worker 1,
      .worker 0, .worker 1, .worker 0, .host, .worker 0, .worker 0, .host, .host, .host, .host,
      .host, .worker 1, .worker 1, .worker 1, .worker 1]

/-- Both workers copy, the second one twice, and the triples come out as they went in. -/
theorem registration_fifo_three_clients :
    ∃ ring, Interleaving.run Turn.fire threeConnections
        (registrationInit fun _ => assingPipeData []) = some ring ∧
      copiedItems ring.history =
        ['a', 'b', 'c'].map (fun letter => assingPipeData (frameOf letter).pipesPath) ∧
      copiedItems ring.history <+: storedItems ring.history ∧ InTurn ring.history := by
  have copied : (Interleaving.run Turn.fire threeConnections
      (registrationInit fun _ => assingPipeData [])).map (copiedItems ·.history) =
      some (['a', 'b', 'c'].map fun letter => assingPipeData (frameOf letter).pipesPath) := by
    decide
  obtain ⟨ring, ran, copied⟩ := Option.map_eq_some_iff.mp copied
  exact ⟨ring, ran, copied, registration_fifo _ _ ring ran⟩

end Kvs.Server
