/-
**From the table's notifications to the client's screen.**

`write_pair` and `delete_pair` write a frame of two fields, the key and the text, for every slot of
the key that is taken; `deliver` is what of it reaches one descriptor. At the other end of the pipe
`kvs_get_notification` reads frame after frame and prints the two strings.

An event of a run is an overwrite or a deletion of a key to which the client is subscribed.
`ChannelRoundTrips` asks that the client prints every event once and in order, however the bytes are
split. A client that holds two slots of a key is written two frames: `channel_iff` says that this
is the only way to fail.
-/

import Kvs.Server.Fields
import Kvs.Lib.WhileLoop
import Kvs.Store.Notification
import Kvs.Common.Io

namespace Kvs.Client

open WhileLoop Server

/-! ### The client's thread -/

/-- The size of a notification frame. -/
def frameSize : ℕ := (maxStringSize + 1) * 2

/-- `filedesc[3]`, with the pairs printed so far. -/
structure Listener where
  pipe : InPipe
  errno : Errno
  printed : List (CStr × CStr)

/-- One round of `kvs_get_notification` while the client is connected; the loop is left when
`read_all` does not fill the buffer. -/
def getNotification (listener : Listener) : Listener ⊕ Listener :=
  let read := readAll frameSize none listener.pipe listener.errno
  let listener := { listener with pipe := read.pipe, errno := read.errno }
  if read.code ≠ 1 then .inr listener
  else
    let key := Server.strncpy (maxStringSize + 1) read.buffer
    let value := Server.strncpy (maxStringSize + 1) (read.buffer.drop (maxStringSize + 1))
    .inl { listener with
      printed := listener.printed ++ [(CStr.ofBuffer key, CStr.ofBuffer value)] }

/-! ### The server's writes -/

/-- The frames of the notifications to one descriptor, written to its pipe one after another; none
when one of them overran its buffer. -/
def deliver (fd : Fd) : List Notification → OutPipe → Errno → Option OutPipe
  | [], pipe, _ => some pipe
  | notification :: sent, pipe, errno =>
    if notification.fd = fd then
      notification.frame.bind fun frame =>
        let written := writeAll frame pipe errno
        deliver fd sent written.pipe written.errno
    else deliver fd sent pipe errno

/-! ### Events -/

/-- What a call tells the subscribers of a key. -/
def told : StoreOp → Option (Key × CStr)
  | .writePair key value => some (key, value)
  | .deletePair key => some (key, deletedText)
  | _ => none

/-- How many slots of the key hold the descriptor. -/
def slotsHeld (fd : Fd) (ht : HashTable) (key : Key) : ℕ :=
  ((ht.lookup key.1).map fun node => node.subscribersFds.held fd).getD 0

/-- The event a step is for a subscriber: a pair overwritten, or a key deleted. -/
def event (fd : Fd) (step : Step) : Option (CStr × CStr) :=
  (told step.op).bind fun (key, text) =>
    if slotsHeld fd step.before key = 0 then none else some (key.1, text)

/-- The strings of a call are shorter than `MAX_STRING_SIZE`. -/
def Short : StoreOp → Prop
  | .writePair key value => key.1.length < maxStringSize ∧ value.length < maxStringSize
  | .deletePair key => key.1.length < maxStringSize
  | _ => True

/-- A call with short strings. -/
abbrev ShortOp := { op : StoreOp // Short op }

/-- These steps are a run of the calls from the empty table. -/
structure OpRun (ops : List ShortOp) (steps : List Step) (ht : HashTable) : Prop where
  run : Run createHashTable steps ht
  ops : steps.map Step.op = ops.map Subtype.val

/-- The client prints exactly the events of these steps. -/
def PrintsEvents (fd : ClientFd) (steps : List Step) : Prop :=
  ∀ writes reads : List Delivery, ∃ pipe result,
    deliver fd.1 (steps.flatMap fun step => step.outcome.notified)
      ⟨[], writes.map Subtype.val⟩ .zero = some pipe ∧
    Returns getNotification ⟨⟨pipe.sent, reads.map Subtype.val⟩, .zero, []⟩ result ∧
    result.printed = steps.filterMap (event fd.1)

/-- The client prints exactly the events of every run of the calls. -/
def ChannelRoundTrips (fd : ClientFd) (ops : List ShortOp) : Prop :=
  ∀ steps ht, OpRun ops steps ht → PrintsEvents fd steps

/-- No call of a run overwrites or deletes a key of which the client holds two slots. -/
def NoDoubleSlot (fd : ClientFd) (ops : List ShortOp) : Prop :=
  ∀ steps ht, OpRun ops steps ht → ∀ step ∈ steps, ∀ key text,
    told step.op = some (key, text) → slotsHeld fd.1 step.before key ≤ 1

/-! ### Frames -/

/-- The bytes of a frame whose strings fit. -/
def frameBytes (pair : CStr × CStr) : List Byte :=
  padded (maxStringSize + 1) pair.1 ++ padded (maxStringSize + 1) pair.2

/-- A pair of strings that leave room for their NULs. -/
def ShortPair (pair : CStr × CStr) : Prop :=
  pair.1.length < maxStringSize ∧ pair.2.length < maxStringSize

section Frames

variable {pair : CStr × CStr}

theorem notificationFrame_short (short : ShortPair pair) :
    notificationFrame pair.1 pair.2 = some (frameBytes pair) := by
  have zeroed : List.replicate ((maxStringSize + 1) * 2) nul =
      List.replicate (maxStringSize + 1) nul ++ List.replicate (maxStringSize + 1) nul := by
    rw [← List.replicate_add]
    rfl
  have keyFits : pair.1.length ≤ maxStringSize + 1 := by unfold ShortPair at short; omega
  have textFits : pair.2.length ≤ maxStringSize + 1 := by unfold ShortPair at short; omega
  have first := copyInto_padded [] (List.replicate (maxStringSize + 1) nul) keyFits rfl
  have second := copyInto_padded (padded (maxStringSize + 1) pair.1) [] textFits
    (padded_length keyFits)
  simp only [List.nil_append, List.append_nil, List.length_nil] at first second
  rw [notificationFrame, zeroed, first, Option.bind_some, second]
  rfl

theorem frameBytes_length (short : ShortPair pair) : (frameBytes pair).length = frameSize := by
  unfold ShortPair at short
  rw [frameBytes, List.length_append, padded_length (by omega), padded_length (by omega)]
  rfl

/-- The two fields of a frame read back as its strings. -/
theorem frameBytes_read (short : ShortPair pair) :
    CStr.ofBuffer (Server.strncpy (maxStringSize + 1) (frameBytes pair)) = pair.1 ∧
      CStr.ofBuffer
          (Server.strncpy (maxStringSize + 1) ((frameBytes pair).drop (maxStringSize + 1))) =
        pair.2 := by
  have keyFits : pair.1.length ≤ maxStringSize + 1 := by unfold ShortPair at short; omega
  have textFits : pair.2.length ≤ maxStringSize + 1 := by unfold ShortPair at short; omega
  have last := strncpy_padded textFits []
  rw [List.append_nil] at last
  rw [frameBytes, strncpy_padded keyFits, List.drop_left' (padded_length keyFits), last,
    ofBuffer_padded, ofBuffer_padded]
  exact ⟨rfl, rfl⟩

end Frames

/-! ### What the server writes -/

/-- What a step tells a descriptor: its pair, once for every slot the descriptor holds. -/
def tells (fd : Fd) (step : Step) : List (CStr × CStr) :=
  match told step.op with
  | some (key, text) => List.replicate (slotsHeld fd step.before key) (key.1, text)
  | none => []

/-- An event is told at least once. -/
theorem event_eq_head? (fd : Fd) (step : Step) : event fd step = (tells fd step).head? := by
  unfold event tells
  cases told step.op with
  | none => rfl
  | some pair => simp [List.head?_replicate]

/-- The notifications of the occupied slots, as far as they go to the descriptor. -/
theorem notifySubscribers_filter {fd : Fd} (nonzero : fd ≠ 0) (slots : Slots) (key text : CStr) :
    (notifySubscribers slots key text).filter (fun sent => sent.fd = fd) =
      List.replicate (slots.held fd) ⟨fd, notificationFrame key text⟩ := by
  have count : slots.occupied.count fd = slots.held fd := by
    rw [Slots.occupied, List.count_filter (by simpa using nonzero), Slots.held]
  rw [notifySubscribers, List.filter_map, ← count]
  show List.map _ (slots.occupied.filter fun other => other = fd) = _
  rw [List.filter_eq, List.map_replicate]

/-- **What a call writes to a descriptor** is its pair, once for every slot the descriptor holds. -/
theorem notified_filter {step : Step} {fd : Fd} (nonzero : fd ≠ 0) (wf : step.before.WellFormed)
    (called : step.op.exec step.before = .ok step.outcome) :
    step.outcome.notified.filter (fun sent => sent.fd = fd) =
      (tells fd step).map fun pair => ⟨fd, notificationFrame pair.1 pair.2⟩ := by
  obtain ⟨op, ht, outcome⟩ := step
  dsimp only at wf called ⊢
  cases op with
  | writePair key value =>
    cases present : ht.lookup key.1 with
    | none =>
      obtain ⟨table, call, _⟩ := writePair_absent wf key value present
      rw [StoreOp.exec, call] at called
      cases called
      simp [tells, told, slotsHeld, present]
    | some node =>
      obtain ⟨table, call, _⟩ := writePair_present wf key value present
      rw [StoreOp.exec, call] at called
      cases called
      simp [tells, told, slotsHeld, present, notifySubscribers_filter nonzero]
  | deletePair key =>
    cases present : ht.lookup key.1 with
    | none =>
      rw [StoreOp.exec, deletePair_absent key present] at called
      cases called
      simp [tells, told, slotsHeld, present]
    | some node =>
      obtain ⟨table, call, _⟩ := deletePair_present wf key present
      rw [StoreOp.exec, call] at called
      cases called
      simp [tells, told, slotsHeld, present, notifySubscribers_filter nonzero]
  | readPair key =>
    rw [StoreOp.exec, readPair_spec] at called
    cases called
    rfl
  | writeSubscription key added =>
    rw [StoreOp.exec] at called
    cases call : Server.writeSubscription ht key.1 added with
    | error fault =>
      rw [call] at called
      cases called
    | ok result =>
      rw [call] at called
      cases called
      rfl
  | deleteSubscription key removed =>
    rw [StoreOp.exec] at called
    cases call : Server.deleteSubscription ht key.1 removed with
    | error fault =>
      rw [call] at called
      cases called
    | ok result =>
      rw [call] at called
      cases called
      rfl
  | disconnect gone =>
    cases called
    rfl
  | disconnectAll =>
    cases called
    rfl

/-- The frames for a descriptor reach its pipe in order. -/
theorem deliver_frames {fd : Fd} (sent : List Notification) (pairs : List (CStr × CStr))
    (short : ∀ pair ∈ pairs, ShortPair pair)
    (mine : sent.filter (fun sent => sent.fd = fd) =
      pairs.map fun pair => ⟨fd, notificationFrame pair.1 pair.2⟩)
    {pipe : OutPipe} (healthy : Healthy pipe.events) (errno : Errno) :
    ∃ events, deliver fd sent pipe errno =
      some ⟨pipe.sent ++ pairs.flatMap frameBytes, events⟩ := by
  induction sent generalizing pairs pipe errno with
  | nil =>
    obtain rfl : pairs = [] := List.map_eq_nil_iff.mp mine.symm
    exact ⟨pipe.events, by simp [deliver]⟩
  | cons notification sent ih =>
    by_cases here : notification.fd = fd
    · rw [List.filter_cons_of_pos (by simpa using here)] at mine
      cases pairs with
      | nil => cases mine
      | cons pair pairs =>
        obtain ⟨same, rest⟩ := List.cons.inj mine
        obtain ⟨events, errno', healthy', _, written⟩ :=
          writeAll_harmless healthy (frameBytes pair) errno
        have left : Healthy (OutPipe.mk (pipe.sent ++ frameBytes pair) events).events := healthy'
        obtain ⟨events', delivered⟩ := ih pairs (fun other member => short other (by simp [member]))
          rest left errno'
        refine ⟨events', ?_⟩
        rw [deliver, if_pos here, same]
        dsimp only
        rw [notificationFrame_short (short pair (by simp)), Option.bind_some]
        simp only [written, delivered, List.flatMap_cons, List.append_assoc]
    · rw [List.filter_cons_of_neg (by simpa using here)] at mine
      rw [deliver, if_neg here]
      exact ih pairs short mine healthy errno

/-! ### What the client prints -/

/-- A frame is printed, and the loop goes on. -/
theorem getNotification_frame {listener : Listener} (healthy : Healthy listener.pipe.events)
    {pair : CStr × CStr} (short : ShortPair pair) {rest : List Byte}
    (bytes : listener.pipe.bytes = frameBytes pair ++ rest) :
    ∃ events errno, Healthy events ∧ getNotification listener =
      .inl ⟨⟨rest, events⟩, errno, listener.printed ++ [pair]⟩ := by
  have enough : frameSize ≤ listener.pipe.bytes.length := by
    rw [bytes, List.length_append, frameBytes_length short]
    exact Nat.le_add_right _ _
  obtain ⟨events, errno, healthy', _, read⟩ := readAll_enough healthy enough listener.errno
  rw [bytes, List.take_left' (frameBytes_length short), List.drop_left' (frameBytes_length short)]
    at read
  obtain ⟨key, text⟩ := frameBytes_read short
  refine ⟨events, errno, healthy', ?_⟩
  simp only [getNotification, read, key, text]
  rfl

/-- At the end of the pipe the loop is left. -/
theorem getNotification_end {listener : Listener} (healthy : Healthy listener.pipe.events)
    (bytes : listener.pipe.bytes = []) :
    ∃ result, getNotification listener = .inr result ∧ result.printed = listener.printed := by
  have short : listener.pipe.bytes.length < frameSize := by
    rw [bytes]
    decide
  obtain ⟨events, errno, _, _, read⟩ := readAll_short healthy short listener.errno
  refine ⟨{ listener with pipe := ⟨[], events⟩, errno := errno }, ?_, rfl⟩
  simp only [getNotification, read]
  rfl

/-- **What the client prints** of a stream of frames. -/
theorem getNotification_returns (pairs : List (CStr × CStr))
    (short : ∀ pair ∈ pairs, ShortPair pair) {listener : Listener}
    (healthy : Healthy listener.pipe.events)
    (bytes : listener.pipe.bytes = pairs.flatMap frameBytes) :
    ∃ result, Returns getNotification listener result ∧
      result.printed = listener.printed ++ pairs := by
  induction pairs generalizing listener with
  | nil =>
    obtain ⟨result, round, printed⟩ := getNotification_end healthy bytes
    exact ⟨result, returns_of_inr round, by rw [printed, List.append_nil]⟩
  | cons pair pairs ih =>
    rw [List.flatMap_cons] at bytes
    obtain ⟨events, errno, healthy', round⟩ :=
      getNotification_frame healthy (short pair (by simp)) bytes
    have left : Healthy (Listener.mk ⟨pairs.flatMap frameBytes, events⟩ errno
        (listener.printed ++ [pair])).pipe.events := healthy'
    obtain ⟨result, returns, printed⟩ :=
      ih (fun other member => short other (by simp [member])) left rfl
    refine ⟨result, (reaches_returns (.single round)).mpr returns, ?_⟩
    rw [printed, List.append_assoc, List.singleton_append]

/-! ### Once each -/

/-- Lists told one after another are their first elements exactly when none is longer than one. -/
theorem flatMap_eq_filterMap_head? {α β : Type} (tells : α → List β) (steps : List α) :
    steps.flatMap tells = steps.filterMap (fun step => (tells step).head?) ↔
      ∀ step ∈ steps, (tells step).length ≤ 1 := by
  have shorter (steps : List α) : (steps.filterMap fun step => (tells step).head?).length ≤
      (steps.flatMap tells).length := by
    induction steps with
    | nil => exact le_rfl
    | cons step steps ih =>
      rw [List.flatMap_cons, List.length_append]
      cases first : tells step with
      | nil =>
        rw [List.filterMap_cons_none (by rw [first]; rfl)]
        exact ih.trans (Nat.le_add_left _ _)
      | cons pair pairs =>
        rw [List.filterMap_cons_some (by rw [first]; rfl), List.length_cons, List.length_cons]
        omega
  induction steps with
  | nil => simp
  | cons step steps ih =>
    rw [List.forall_mem_cons, List.flatMap_cons]
    cases first : tells step with
    | nil =>
      rw [List.filterMap_cons_none (by rw [first]; rfl), List.nil_append]
      exact ih.trans ⟨fun rest => ⟨Nat.zero_le _, rest⟩, fun both => both.2⟩
    | cons pair pairs =>
      rw [List.filterMap_cons_some (by rw [first]; rfl)]
      constructor
      · intro same
        rw [List.cons_append] at same
        have rest := (List.cons.inj same).2
        have lengths := congrArg List.length rest
        have least := shorter steps
        rw [List.length_append] at lengths
        obtain rfl : pairs = [] := List.eq_nil_of_length_eq_zero (by omega)
        exact ⟨le_rfl, ih.mp rest⟩
      · rintro ⟨single, others⟩
        obtain rfl : pairs = [] := List.eq_nil_of_length_eq_zero (by simpa using single)
        exact congrArg _ (ih.mpr others)

variable {fd : ClientFd} {ops : List ShortOp} {steps : List Step} {ht : HashTable}

theorem OpRun.short (opRun : OpRun ops steps ht) {step : Step} (member : step ∈ steps) :
    Short step.op := by
  have inside : step.op ∈ steps.map Step.op := List.mem_map_of_mem member
  rw [opRun.ops] at inside
  obtain ⟨op, _, same⟩ := List.mem_map.mp inside
  exact same ▸ op.2

/-- The pairs told are as short as the calls' strings. -/
theorem tells_short {step : Step} (short : Short step.op) :
    ∀ pair ∈ tells fd.1 step, ShortPair pair := by
  obtain ⟨op, before, outcome⟩ := step
  cases op with
  | writePair key value =>
    intro pair member
    obtain ⟨_, rfl⟩ := List.mem_replicate.mp member
    exact short
  | deletePair key =>
    intro pair member
    obtain ⟨_, rfl⟩ := List.mem_replicate.mp member
    exact ⟨short, show deletedText.length < maxStringSize by decide⟩
  | _ => exact fun _ member => absurd member List.not_mem_nil

/-- **What the client prints** of a run is what the run tells it. -/
theorem prints_tells (fd : ClientFd) (opRun : OpRun ops steps ht) (writes reads : List Delivery) :
    ∃ pipe result,
      deliver fd.1 (steps.flatMap fun step => step.outcome.notified)
        ⟨[], writes.map Subtype.val⟩ .zero = some pipe ∧
      Returns getNotification ⟨⟨pipe.sent, reads.map Subtype.val⟩, .zero, []⟩ result ∧
      result.printed = steps.flatMap (tells fd.1) := by
  have short : ∀ pair ∈ steps.flatMap (tells fd.1), ShortPair pair := by
    intro pair member
    obtain ⟨step, inside, here⟩ := List.mem_flatMap.mp member
    exact tells_short (opRun.short inside) pair here
  have mine : (steps.flatMap fun step => step.outcome.notified).filter
        (fun sent => sent.fd = fd.1) =
      (steps.flatMap (tells fd.1)).map fun pair => ⟨fd.1, notificationFrame pair.1 pair.2⟩ := by
    rw [List.filter_flatMap, List.map_flatMap]
    apply List.flatMap_congr
    intro step member
    obtain ⟨wf, called⟩ := opRun.run.steps_called step member
    exact notified_filter fd.2 wf called
  have healthyWrites : Healthy (OutPipe.mk [] (writes.map Subtype.val)).events :=
    healthy_deliveries writes
  obtain ⟨events, delivered⟩ := deliver_frames _ _ short mine healthyWrites .zero
  have healthyReads : Healthy (Listener.mk ⟨(steps.flatMap (tells fd.1)).flatMap frameBytes,
      reads.map Subtype.val⟩ .zero []).pipe.events := healthy_deliveries reads
  obtain ⟨result, returns, printed⟩ := getNotification_returns _ short healthyReads rfl
  exact ⟨_, result, delivered, returns, printed⟩

/-- A run prints its events exactly when it tells nothing twice. -/
theorem printsEvents_iff (opRun : OpRun ops steps ht) :
    PrintsEvents fd steps ↔ ∀ step ∈ steps, (tells fd.1 step).length ≤ 1 := by
  rw [← flatMap_eq_filterMap_head?]
  have events : steps.filterMap (event fd.1) =
      steps.filterMap fun step => (tells fd.1 step).head? := by
    congr 1
    funext step
    exact event_eq_head? fd.1 step
  rw [← events]
  constructor
  · intro prints
    obtain ⟨pipe, result, delivered, returns, printed⟩ := prints [] []
    obtain ⟨pipe', result', delivered', returns', printed'⟩ := prints_tells fd opRun [] []
    cases delivered.symm.trans delivered'
    rw [← printed, ← printed', returns.unique returns']
  · intro once writes reads
    obtain ⟨pipe, result, delivered, returns, printed⟩ := prints_tells fd opRun writes reads
    exact ⟨pipe, result, delivered, returns, printed.trans once⟩

/-- **The channel round-trips exactly without double slots.** -/
theorem channel_iff (fd : ClientFd) (ops : List ShortOp) :
    ChannelRoundTrips fd ops ↔ NoDoubleSlot fd ops := by
  unfold ChannelRoundTrips NoDoubleSlot
  refine forall_congr' fun steps => forall_congr' fun ht => forall_congr' fun opRun => ?_
  rw [printsEvents_iff opRun]
  refine forall_congr' fun step => forall_congr' fun _ => ?_
  unfold tells
  cases told step.op with
  | none => simp
  | some pair =>
    rw [List.length_replicate]
    constructor
    · rintro once key text same
      cases same
      exact once
    · exact fun once => once pair.1 pair.2 rfl

/-! ### A client that subscribes twice -/

/-- One client subscribes to a present key, repeats the request, and the key is deleted. -/
def deletedAfterRepeat : List ShortOp :=
  [⟨.writePair keyA valueAnna, by decide, by decide⟩,
    ⟨.writeSubscription keyA clientFd.1, trivial⟩, ⟨.writeSubscription keyA clientFd.1, trivial⟩,
    ⟨.deletePair keyA, show keyA.1.length < maxStringSize by decide⟩]

/-- The one deletion is printed twice. -/
theorem deletedAfterRepeat_printedTwice : ¬ ChannelRoundTrips clientFd deletedAfterRepeat := by
  intro roundTrips
  have written := @Run.snoc createHashTable _ _ (.writePair keyA valueAnna) _ .nil rfl
  have subscribed := @Run.snoc _ _ _ (.writeSubscription keyA clientFd.1) _ written rfl
  have repeated := @Run.snoc _ _ _ (.writeSubscription keyA clientFd.1) _ subscribed rfl
  have deleted := @Run.snoc _ _ _ (.deletePair keyA) _ repeated rfl
  have opRun : OpRun deletedAfterRepeat _ _ := ⟨deleted, rfl⟩
  have once := (printsEvents_iff opRun).mp (roundTrips _ _ opRun) _
    (List.mem_append_right _ List.mem_cons_self)
  -- the deletion meets both slots taken by the descriptor
  exact absurd once (show ¬ 2 ≤ 1 by decide)

end Kvs.Client
