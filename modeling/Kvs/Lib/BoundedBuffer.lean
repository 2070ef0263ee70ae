/-
**A ring buffer between one producer and many consumers.**

Two semaphores and a lock guard a ring of `capacity` slots: `spaces` counts the slots free to store
into, `items` the ones to copy out of. The producer waits for a space, locks, stores at the write
index, advances it, unlocks and posts an item; a consumer waits for an item, locks, copies at the
read index, advances it, unlocks and posts a space. Every one of these is a step of its own, and
`fire` lets any party take its next one.

`put` is how an input is laid down in a slot and `get` how a slot is copied out.

The history lists the accesses to the slots. `Invariant` is what the semaphores and the lock give in
every interleaving (`initially_invariant`, `fire_keeps`): what is copied out is, in order, a prefix
of what was stored, no slot is stored into before it has been copied out, and none is copied out
twice.
-/

import Kvs.Lib.EventLog
import Kvs.Lib.Interleaving

set_option linter.unusedSectionVars false

namespace BoundedBuffer

variable {ι α β τ : Type} {capacity : ℕ}

/-! ### The parties -/

/-- Where the producer stands; it holds the lock from `storing` to `unlocking`. -/
inductive Producer (ι : Type) where
  | idle
  | waiting (input : ι)
  | locking (input : ι)
  | storing (input : ι)
  | advancing
  | unlocking
  | posting
deriving DecidableEq

/-- Where a consumer stands; it holds the lock from `copying` to `unlocking`. -/
inductive Consumer (β : Type) where
  | waiting
  | locking
  | copying
  | advancing (copy : β)
  | unlocking (copy : β)
  | posting (copy : β)
  | working (copy : β)
deriving DecidableEq

/-- Who can hold the lock. -/
inductive Party (τ : Type) where
  | producer
  | consumer (thread : τ)
deriving DecidableEq

/-- An access to a slot. -/
inductive Access (capacity : ℕ) (α β : Type) where
  | stored (slot : Fin capacity) (item : α)
  | copied (slot : Fin capacity) (copy : β)
deriving DecidableEq

/-- The buffer, its semaphores, its lock and its parties. -/
structure System (ι α β τ : Type) (capacity : ℕ) where
  slots : Fin capacity → α
  writeIndex : Fin capacity
  readIndex : Fin capacity
  spaces : ℕ
  items : ℕ
  holder : Option (Party τ)
  producer : Producer ι
  consumers : τ → Consumer β
  /-- The accesses made so far, oldest first. -/
  history : List (Access capacity α β)

/-- An empty buffer; the slots hold whatever memory holds. -/
def initially [NeZero capacity] (memory : Fin capacity → α) : System ι α β τ capacity where
  slots := memory
  writeIndex := 0
  readIndex := 0
  spaces := capacity
  items := 0
  holder := none
  producer := .idle
  consumers _ := .waiting
  history := []

/-- `(index + 1) % capacity`. -/
def advanceIndex (index : Fin capacity) : Fin capacity :=
  ⟨(index.val + 1) % capacity, Nat.mod_lt _ index.pos⟩

/-- Whose turn it is. -/
inductive Event (ι τ : Type) where
  /-- An idle producer gets an input. -/
  | produce (input : ι)
  | producer
  | consumer (thread : τ)

section Fire

variable (put : ι → α) (get : α → β) [DecidableEq τ]

/-- The producer's next step; none when it has none or must wait. -/
def producerStep (system : System ι α β τ capacity) : Option (System ι α β τ capacity) :=
  match system.producer with
  | .idle => none
  | .waiting input =>
    if 0 < system.spaces then
      some { system with spaces := system.spaces - 1, producer := .locking input }
    else none
  | .locking input =>
    if system.holder = none then
      some { system with holder := some .producer, producer := .storing input }
    else none
  | .storing input =>
    some { system with
      slots := Function.update system.slots system.writeIndex (put input)
      history := system.history ++ [.stored system.writeIndex (put input)]
      producer := .advancing }
  | .advancing =>
    some { system with writeIndex := advanceIndex system.writeIndex, producer := .unlocking }
  | .unlocking => some { system with holder := none, producer := .posting }
  | .posting => some { system with items := system.items + 1, producer := .idle }

/-- A consumer's next step; none when it must wait. -/
def consumerStep (thread : τ) (system : System ι α β τ capacity) :
    Option (System ι α β τ capacity) :=
  let goTo (point : Consumer β) := Function.update system.consumers thread point
  match system.consumers thread with
  | .waiting =>
    if 0 < system.items then
      some { system with items := system.items - 1, consumers := goTo .locking }
    else none
  | .locking =>
    if system.holder = none then
      some { system with holder := some (.consumer thread), consumers := goTo .copying }
    else none
  | .copying =>
    let copy := get (system.slots system.readIndex)
    some { system with
      history := system.history ++ [.copied system.readIndex copy]
      consumers := goTo (.advancing copy) }
  | .advancing copy =>
    some { system with
      readIndex := advanceIndex system.readIndex, consumers := goTo (.unlocking copy) }
  | .unlocking copy => some { system with holder := none, consumers := goTo (.posting copy) }
  | .posting copy =>
    some { system with spaces := system.spaces + 1, consumers := goTo (.working copy) }
  | .working _ => some { system with consumers := goTo .waiting }

/-- One step of the system; none when it cannot be taken. -/
def fire : Event ι τ → System ι α β τ capacity → Option (System ι α β τ capacity)
  | .produce input, system =>
    match system.producer with
    | .idle => some { system with producer := .waiting input }
    | _ => none
  | .producer, system => producerStep put system
  | .consumer thread, system => consumerStep get thread system

end Fire

/-! ### The history -/

/-- The item an access stored. -/
def Access.item : Access capacity α β → Option α
  | stored _ item => some item
  | copied _ _ => none

/-- The copy an access took out. -/
def Access.copy : Access capacity α β → Option β
  | stored _ _ => none
  | copied _ copy => some copy

/-- The access stores into the slot. -/
def Access.storesAt (slot : Fin capacity) : Access capacity α β → Prop
  | stored other _ => other = slot
  | copied _ _ => False

/-- The access copies the slot out. -/
def Access.copiesAt (slot : Fin capacity) : Access capacity α β → Prop
  | stored _ _ => False
  | copied other _ => other = slot

/-- What was stored, in order. -/
def storedItems (history : List (Access capacity α β)) : List α := history.filterMap Access.item

/-- What was copied out, in order. -/
def copiedItems (history : List (Access capacity α β)) : List β := history.filterMap Access.copy

/-- The slot has been stored into and not copied out since. -/
def Pending (history : List (Access capacity α β)) (slot : Fin capacity) : Prop :=
  EventLog.Since (Access.storesAt slot) (Access.copiesAt slot) history

/-- Every store meets a slot with nothing pending, and every copy one with something pending. -/
def InTurn (history : List (Access capacity α β)) : Prop :=
  ∀ earlier access later, history = earlier ++ access :: later →
    match access with
    | .stored slot _ => ¬ Pending earlier slot
    | .copied slot _ => Pending earlier slot

section History

variable {history : List (Access capacity α β)} {slot : Fin capacity}

@[simp] theorem storedItems_stored (item : α) :
    storedItems (history ++ [.stored slot item]) = storedItems history ++ [item] := by
  simp [storedItems, Access.item]

@[simp] theorem storedItems_copied (copy : β) :
    storedItems (history ++ [.copied slot copy]) = storedItems history := by
  simp [storedItems, Access.item]

@[simp] theorem copiedItems_stored (item : α) :
    copiedItems (history ++ [.stored slot item]) = copiedItems history := by
  simp [copiedItems, Access.copy]

@[simp] theorem copiedItems_copied (copy : β) :
    copiedItems (history ++ [.copied slot copy]) = copiedItems history ++ [copy] := by
  simp [copiedItems, Access.copy]

theorem inTurn_nil : InTurn ([] : List (Access capacity α β)) := by
  intro earlier access later split
  cases earlier <;> cases split

/-- One more access in its turn. -/
theorem InTurn.snoc (turns : InTurn history) {access : Access capacity α β}
    (turn : match access with
      | .stored slot _ => ¬ Pending history slot
      | .copied slot _ => Pending history slot) : InTurn (history ++ [access]) := by
  intro earlier other later split
  rcases List.eq_nil_or_concat later with rfl | ⟨later, last, rfl⟩
  · obtain ⟨rfl, same⟩ := List.append_inj' split rfl
    cases same
    exact turn
  · rw [List.concat_eq_append, ← List.cons_append, ← List.append_assoc] at split
    obtain ⟨rfl, -⟩ := List.append_inj' split rfl
    exact turns earlier other later rfl

theorem pending_stored {other : Fin capacity} (item : α) :
    Pending (history ++ [.stored slot item]) other ↔ slot = other ∨ Pending history other := by
  rw [Pending, EventLog.since_snoc]
  simp [Access.storesAt, Access.copiesAt, Pending]

theorem pending_copied {other : Fin capacity} (copy : β) :
    Pending (history ++ [.copied slot copy]) other ↔ slot ≠ other ∧ Pending history other := by
  rw [Pending, EventLog.since_snoc]
  simp [Access.storesAt, Access.copiesAt, Pending]

end History
/-! ### Where the parties stand -/

/-- The part of its round a party is in, producer or consumer. -/
inductive Stage where
  | away | waiting | locking | accessing | advancing | unlocking | posting
deriving DecidableEq

def Producer.stage : Producer ι → Stage
  | .idle => .away
  | .waiting _ => .waiting
  | .locking _ => .locking
  | .storing _ => .accessing
  | .advancing => .advancing
  | .unlocking => .unlocking
  | .posting => .posting

def Consumer.stage : Consumer β → Stage
  | .waiting => .waiting
  | .locking => .locking
  | .copying => .accessing
  | .advancing _ => .advancing
  | .unlocking _ => .unlocking
  | .posting _ => .posting
  | .working _ => .away

namespace Stage

/-- The party holds the lock. -/
def inside : Stage → Bool
  | accessing | advancing | unlocking => true
  | _ => false

/-- It has taken from the semaphore it waits for and not accessed a slot yet. -/
def reserved : Stage → ℕ
  | locking | accessing => 1
  | _ => 0

/-- It has accessed a slot and not posted yet. -/
def owed : Stage → ℕ
  | advancing | unlocking | posting => 1
  | _ => 0

/-- It has accessed the slot at its index and not advanced the index yet. -/
def behind : Stage → ℕ
  | advancing => 1
  | _ => 0

theorem behind_of_not_inside {stage : Stage} (outside : stage.inside = false) :
    stage.behind = 0 := by
  cases stage with
  | advancing => cases outside
  | _ => rfl

end Stage

section Invariant

variable [Fintype τ] [DecidableEq τ]

/-- A weight summed over the consumers. -/
def total (weight : Stage → ℕ) (consumers : τ → Consumer β) : ℕ :=
  ∑ thread, weight (consumers thread).stage

/-- One consumer moves on: its old weight goes and its new one comes. -/
theorem total_update (weight : Stage → ℕ) (consumers : τ → Consumer β) (thread : τ)
    (point : Consumer β) :
    total weight (Function.update consumers thread point) + weight (consumers thread).stage =
      total weight consumers + weight point.stage :=
  Interleaving.total_update (fun point : Consumer β => weight point.stage) consumers thread point

/-- The lock is held by the party that is inside, the semaphores count what the parties have not
taken or not given back, the indices run with the numbers of stores and copies, and the slots hold
what is stored and not copied out. -/
structure Invariant (get : α → β) (system : System ι α β τ capacity) : Prop where
  producerHolds : system.holder = some .producer ↔ system.producer.stage.inside = true
  consumerHolds : ∀ thread, system.holder = some (.consumer thread) ↔
    (system.consumers thread).stage.inside = true
  spaces : (storedItems system.history).length + system.spaces + system.producer.stage.reserved +
    total Stage.owed system.consumers = (copiedItems system.history).length + capacity
  items : (copiedItems system.history).length + system.items +
    total Stage.reserved system.consumers + system.producer.stage.owed =
      (storedItems system.history).length
  writeIndex : (system.writeIndex.val + system.producer.stage.behind) % capacity =
    (storedItems system.history).length % capacity
  readIndex : (system.readIndex.val + total Stage.behind system.consumers) % capacity =
    (copiedItems system.history).length % capacity
  slots : ∀ place item, (copiedItems system.history).length ≤ place →
    (storedItems system.history)[place]? = some item →
    ∀ slot : Fin capacity, slot.val = place % capacity → system.slots slot = item
  copies : copiedItems system.history <+: (storedItems system.history).map get
  pending : ∀ slot, Pending system.history slot ↔
    ∃ place, (copiedItems system.history).length ≤ place ∧
      place < (storedItems system.history).length ∧ slot.val = place % capacity
  turns : InTurn system.history

theorem initially_invariant [NeZero capacity] (get : α → β) (memory : Fin capacity → α) :
    Invariant get (initially memory : System ι α β τ capacity) := by
  constructor
  · simp [initially, Producer.stage, Stage.inside]
  · simp [initially, Consumer.stage, Stage.inside]
  · simp [initially, storedItems, copiedItems, total, Producer.stage, Consumer.stage,
      Stage.reserved, Stage.owed]
  · simp [initially, storedItems, copiedItems, total, Producer.stage, Consumer.stage,
      Stage.reserved, Stage.owed]
  · simp [initially, storedItems, Producer.stage, Stage.behind]
  · simp [initially, copiedItems, total, Consumer.stage, Stage.behind]
  · simp [initially, storedItems]
  · simp [initially, copiedItems]
  · intro slot
    have nothing : ¬ Pending ([] : List (Access capacity α β)) slot := EventLog.not_since_nil
    simpa [initially, storedItems] using nothing
  · exact inTurn_nil

section Steps

variable {put : ι → α} {get : α → β} {system next : System ι α β τ capacity} {thread : τ}

/-- Two places less than a round apart share no slot. -/
theorem mod_ne_mod {first second : ℕ} (before : first < second)
    (near : second < first + capacity) : first % capacity ≠ second % capacity := by
  intro same
  have divides : capacity ∣ second - first := (Nat.modEq_iff_dvd' before.le).mp same
  have := Nat.le_of_dvd (by omega) divides
  omega

/-- A consumer that moves on leaves the others where they are. -/
theorem consumerHolds_update (inv : Invariant get system) {holder : Option (Party τ)}
    {point : Consumer β} (self : holder = some (.consumer thread) ↔ point.stage.inside = true)
    (others : ∀ other, other ≠ thread →
      (holder = some (.consumer other) ↔ system.holder = some (.consumer other))) :
    ∀ other, holder = some (.consumer other) ↔
      ((Function.update system.consumers thread point) other).stage.inside = true := by
  intro other
  by_cases same : other = thread
  · subst same
    rwa [Function.update_self]
  · rw [Function.update_of_ne same, others other same]
    exact inv.consumerHolds other

/-- While a consumer that is not behind holds the lock, none is behind. -/
theorem total_behind_eq_zero (inv : Invariant get system)
    (outside : ∀ thread, system.holder = some (.consumer thread) →
      (system.consumers thread).stage.behind = 0) :
    total Stage.behind system.consumers = 0 := by
  apply Finset.sum_eq_zero
  intro thread _
  cases inside : (system.consumers thread).stage.inside with
  | false => exact Stage.behind_of_not_inside inside
  | true => exact outside thread ((inv.consumerHolds thread).mpr inside)

/-- **A store** goes to a slot with nothing pending. -/
theorem store_keeps (inv : Invariant get system) {input : ι}
    (point : system.producer = .storing input) :
    Invariant get ({ system with
      slots := Function.update system.slots system.writeIndex (put input)
      history := system.history ++ [.stored system.writeIndex (put input)]
      producer := .advancing } : System ι α β τ capacity) := by
  have holds := inv.producerHolds
  have spaces := inv.spaces
  have items := inv.items
  have written := inv.writeIndex
  simp only [point, Producer.stage, Stage.inside, Stage.reserved, Stage.owed, Stage.behind,
    Nat.add_zero, Nat.mod_eq_of_lt system.writeIndex.isLt] at holds spaces items written
  -- the place the item goes to comes less than a round after every pending one
  have clear : ∀ place, (copiedItems system.history).length ≤ place →
      place < (storedItems system.history).length →
      system.writeIndex.val ≠ place % capacity := by
    intro place pending before same
    rw [written] at same
    exact mod_ne_mod before (by omega) same.symm
  constructor
  · simpa [Producer.stage, Stage.inside] using holds
  · exact inv.consumerHolds
  · simp only [storedItems_stored, copiedItems_stored, Producer.stage, Stage.reserved,
      List.length_append, List.length_singleton]
    omega
  · simp only [storedItems_stored, copiedItems_stored, Producer.stage, Stage.owed,
      List.length_append, List.length_singleton]
    omega
  · simp [Producer.stage, Stage.behind, written]
  · simpa using inv.readIndex
  · intro place item pending there slot same
    rw [copiedItems_stored] at pending
    rw [storedItems_stored] at there
    dsimp only
    rcases lt_or_ge place (storedItems system.history).length with before | after
    · rw [List.getElem?_append_left before] at there
      have other : slot ≠ system.writeIndex := by
        rintro rfl
        exact clear place pending before same
      rw [Function.update_of_ne other]
      exact inv.slots place item pending there slot same
    · have last : place = (storedItems system.history).length := by
        have inside := (List.getElem?_eq_some_iff.mp there).1
        simp only [List.length_append, List.length_singleton] at inside
        omega
      subst last
      have here : slot = system.writeIndex := Fin.ext (same.trans written.symm)
      simpa [here] using there
  · rw [copiedItems_stored, storedItems_stored, List.map_append]
    exact inv.copies.trans (List.prefix_append _ _)
  · intro slot
    rw [pending_stored, inv.pending, copiedItems_stored, storedItems_stored, List.length_append,
      List.length_singleton]
    constructor
    · rintro (rfl | ⟨place, least, before, same⟩)
      · exact ⟨_, by omega, Nat.lt_succ_self _, written⟩
      · exact ⟨place, least, by omega, same⟩
    · rintro ⟨place, least, before, same⟩
      rcases Nat.lt_succ_iff_lt_or_eq.mp before with before | rfl
      · exact Or.inr ⟨place, least, before, same⟩
      · exact Or.inl (Fin.ext (written.trans same.symm))
  · refine inv.turns.snoc ?_
    show ¬ Pending system.history system.writeIndex
    rw [inv.pending]
    rintro ⟨place, least, before, same⟩
    exact clear place least before same

/-- **A step of the producer.** -/
theorem producerStep_keeps (inv : Invariant get system)
    (stepped : producerStep put system = some next) : Invariant get next := by
  unfold producerStep at stepped
  have holds := inv.producerHolds
  have spaces := inv.spaces
  have items := inv.items
  have written := inv.writeIndex
  cases point : system.producer with
  | idle =>
    simp only [point] at stepped
    cases stepped
  | waiting input =>
    simp only [point, Producer.stage, Stage.inside, Stage.reserved, Stage.owed, Stage.behind]
      at stepped holds spaces items written
    split at stepped
    · cases stepped
      refine { inv with
        producerHolds := holds, spaces := ?_, items := items, writeIndex := written }
      simp only [Producer.stage, Stage.reserved]
      omega
    · cases stepped
  | locking input =>
    simp only [point, Producer.stage, Stage.inside, Stage.reserved, Stage.owed, Stage.behind]
      at stepped holds spaces items written
    split at stepped
    · rename_i free
      cases stepped
      refine { inv with
        producerHolds := by simp [Producer.stage, Stage.inside],
        consumerHolds := fun thread => ?_,
        spaces := spaces, items := items, writeIndex := written }
      simpa [free] using inv.consumerHolds thread
    · cases stepped
  | storing input =>
    simp only [point] at stepped
    cases stepped
    exact store_keeps inv point
  | advancing =>
    simp only [point, Producer.stage, Stage.inside, Stage.reserved, Stage.owed, Stage.behind]
      at stepped holds spaces items written
    cases stepped
    refine { inv with
      producerHolds := by simpa [Producer.stage, Stage.inside] using holds,
      spaces := spaces, items := items, writeIndex := ?_ }
    simpa [Producer.stage, Stage.behind, advanceIndex] using written
  | unlocking =>
    simp only [point, Producer.stage, Stage.inside, Stage.reserved, Stage.owed, Stage.behind]
      at stepped holds spaces items written
    cases stepped
    refine { inv with
      producerHolds := by simp [Producer.stage, Stage.inside], consumerHolds := fun thread => ?_,
      spaces := spaces, items := items, writeIndex := written }
    have outside := inv.consumerHolds thread
    rw [holds.mpr trivial] at outside
    simpa using outside
  | posting =>
    simp only [point, Producer.stage, Stage.inside, Stage.reserved, Stage.owed, Stage.behind]
      at stepped holds spaces items written
    cases stepped
    refine { inv with producerHolds := holds, spaces := spaces, items := ?_, writeIndex := written }
    simp only [Producer.stage, Stage.owed]
    omega

/-- **A copy** takes out the oldest pending item. -/
theorem copy_keeps (inv : Invariant get system) (point : system.consumers thread = .copying) :
    Invariant get ({ system with
      history := system.history ++ [.copied system.readIndex (get (system.slots system.readIndex))]
      consumers := Function.update system.consumers thread
        (.advancing (get (system.slots system.readIndex))) } : System ι α β τ capacity) := by
  have spaces := inv.spaces
  have items := inv.items
  have read := inv.readIndex
  have holds : system.holder = some (.consumer thread) := by
    rw [inv.consumerHolds, point]
    rfl
  have alone : total Stage.behind system.consumers = 0 := by
    apply total_behind_eq_zero inv
    intro other holding
    cases holds.symm.trans holding
    rw [point]
    rfl
  rw [alone, Nat.add_zero, Nat.mod_eq_of_lt system.readIndex.isLt] at read
  have reserved := total_update Stage.reserved system.consumers thread
    (.advancing (get (system.slots system.readIndex)))
  have owed := total_update Stage.owed system.consumers thread
    (.advancing (get (system.slots system.readIndex)))
  have behind := total_update Stage.behind system.consumers thread
    (.advancing (get (system.slots system.readIndex)))
  simp only [point, Consumer.stage, Stage.reserved, Stage.owed, Stage.behind]
    at reserved owed behind
  have before : (copiedItems system.history).length < (storedItems system.history).length := by
    omega
  obtain ⟨item, there⟩ : ∃ item,
      (storedItems system.history)[(copiedItems system.history).length]? = some item :=
    ⟨_, List.getElem?_eq_getElem before⟩
  have held := inv.slots _ item le_rfl there system.readIndex read
  constructor
  · simpa [holds] using inv.producerHolds
  · exact consumerHolds_update inv (by simp [holds, Consumer.stage, Stage.inside])
      fun other different => Iff.rfl
  · simp only [storedItems_copied, copiedItems_copied, List.length_append, List.length_singleton]
    omega
  · simp only [storedItems_copied, copiedItems_copied, List.length_append, List.length_singleton]
    omega
  · simpa using inv.writeIndex
  · have one : total Stage.behind (Function.update system.consumers thread
        (.advancing (get (system.slots system.readIndex)))) = 1 := by omega
    simp [one, read]
  · intro place other pending there
    simp only [copiedItems_copied, List.length_append, List.length_singleton] at pending
    rw [storedItems_copied] at there
    exact inv.slots place other (by omega) there
  · -- one more copy of the prefix
    have prefixed := List.prefix_iff_eq_take.mp inv.copies
    rw [storedItems_copied, copiedItems_copied, List.prefix_iff_eq_take, List.length_append,
      List.length_singleton, List.take_add_one, ← prefixed, List.getElem?_map, there, held]
    rfl
  · intro slot
    rw [pending_copied, inv.pending, copiedItems_copied, storedItems_copied, List.length_append,
      List.length_singleton]
    constructor
    · rintro ⟨other, place, least, inside, same⟩
      refine ⟨place, ?_, inside, same⟩
      rcases least.lt_or_eq with later | rfl
      · exact later
      · exact absurd (Fin.ext (read.trans same.symm)) other
    · rintro ⟨place, later, inside, same⟩
      refine ⟨?_, place, by omega, inside, same⟩
      rintro rfl
      exact mod_ne_mod (show (copiedItems system.history).length < place by omega) (by omega)
        (read.symm.trans same)
  · refine inv.turns.snoc ?_
    show Pending system.history system.readIndex
    rw [inv.pending]
    exact ⟨_, le_rfl, before, read⟩

/-- A consumer moves on without an access: what it takes from a semaphore it holds in reserve, what
it owes it gives back, and it catches up with the index. -/
theorem move_keeps (inv : Invariant get system) (point : Consumer β) {holder : Option (Party τ)}
    {spaces items : ℕ} {readIndex : Fin capacity}
    (self : holder = some (.consumer thread) ↔ point.stage.inside = true)
    (others : ∀ party, party ≠ .consumer thread →
      (holder = some party ↔ system.holder = some party))
    (spacesKept : spaces + point.stage.owed =
      system.spaces + (system.consumers thread).stage.owed)
    (itemsKept : items + point.stage.reserved =
      system.items + (system.consumers thread).stage.reserved)
    (readKept : (readIndex.val + point.stage.behind) % capacity =
      (system.readIndex.val + (system.consumers thread).stage.behind) % capacity) :
    Invariant get ({ system with
      holder, spaces, items, readIndex
      consumers := Function.update system.consumers thread point } : System ι α β τ capacity) := by
  have reserved := total_update Stage.reserved system.consumers thread point
  have owed := total_update Stage.owed system.consumers thread point
  have behind := total_update Stage.behind system.consumers thread point
  refine { inv with
    producerHolds := (others .producer (by simp)).trans inv.producerHolds
    consumerHolds := consumerHolds_update inv self fun other different => others _ (by simpa)
    spaces := ?_, items := ?_, readIndex := ?_ }
  · have spaces := inv.spaces
    simp only
    omega
  · have items := inv.items
    simp only
    omega
  · rw [← inv.readIndex]
    apply Nat.ModEq.add_right_cancel' (system.consumers thread).stage.behind
    have sums : readIndex.val + total Stage.behind (Function.update system.consumers thread point) +
        (system.consumers thread).stage.behind =
          readIndex.val + point.stage.behind + total Stage.behind system.consumers := by omega
    calc _ = readIndex.val + point.stage.behind + total Stage.behind system.consumers := sums
      _ ≡ system.readIndex.val + (system.consumers thread).stage.behind +
          total Stage.behind system.consumers [MOD capacity] := Nat.ModEq.add_right _ readKept
      _ = system.readIndex.val + total Stage.behind system.consumers +
          (system.consumers thread).stage.behind := by omega

/-- **A step of a consumer.** -/
theorem consumerStep_keeps (inv : Invariant get system)
    (stepped : consumerStep get thread system = some next) : Invariant get next := by
  unfold consumerStep at stepped
  have holds := inv.consumerHolds thread
  cases point : system.consumers thread with
  | waiting =>
    simp only [point] at stepped holds
    split at stepped
    · cases stepped
      apply move_keeps inv .locking holds (fun party different => Iff.rfl) <;>
        simp only [point, Consumer.stage, Stage.owed, Stage.reserved, Stage.behind]
      omega
    · cases stepped
  | locking =>
    simp only [point] at stepped
    split at stepped
    · rename_i free
      cases stepped
      apply move_keeps inv .copying (by simp [Consumer.stage, Stage.inside]) <;>
        simp [point, free, Consumer.stage, Stage.owed, Stage.reserved, Stage.behind]
      intro party different
      exact Ne.symm different
    · cases stepped
  | copying =>
    simp only [point] at stepped
    cases stepped
    exact copy_keeps inv point
  | advancing copy =>
    simp only [point] at stepped holds
    cases stepped
    apply move_keeps inv (.unlocking copy) holds (fun party different => Iff.rfl) <;>
      simp [point, advanceIndex, Consumer.stage, Stage.owed, Stage.reserved, Stage.behind]
  | unlocking copy =>
    simp only [point] at stepped holds
    have holding : system.holder = some (.consumer thread) := holds.mpr rfl
    cases stepped
    apply move_keeps inv (.posting copy) (by simp [Consumer.stage, Stage.inside]) <;>
      simp [point, holding, Consumer.stage, Stage.owed, Stage.reserved, Stage.behind]
    intro party different
    exact Ne.symm different
  | posting copy =>
    simp only [point] at stepped holds
    cases stepped
    apply move_keeps inv (.working copy) holds (fun party different => Iff.rfl) <;>
      simp only [point, Consumer.stage, Stage.owed, Stage.reserved, Stage.behind]
  | working copy =>
    simp only [point] at stepped holds
    cases stepped
    apply move_keeps inv .waiting holds (fun party different => Iff.rfl) <;>
      simp only [point, Consumer.stage, Stage.owed, Stage.reserved, Stage.behind]

/-- **The step lemma.** -/
theorem fire_keeps {event : Event ι τ} (inv : Invariant get system)
    (fired : fire put get event system = some next) : Invariant get next := by
  cases event with
  | produce input =>
    rw [fire] at fired
    split at fired
    · rename_i point
      cases fired
      have holds := inv.producerHolds
      have spaces := inv.spaces
      have items := inv.items
      have written := inv.writeIndex
      rw [point] at holds spaces items written
      exact { inv with
        producerHolds := holds, spaces := spaces, items := items, writeIndex := written }
    · cases fired
  | producer => exact producerStep_keeps inv fired
  | consumer thread => exact consumerStep_keeps inv fired

/-- A step leaves the history or adds one access, and what it stores is laid down by `put`. -/
theorem fire_history {event : Event ι τ} (fired : fire put get event system = some next) :
    next.history = system.history ∨
      (∃ slot input, next.history = system.history ++ [.stored slot (put input)]) ∨
      ∃ slot copy, next.history = system.history ++ [.copied slot copy] := by
  cases event with
  | produce input =>
    rw [fire] at fired
    split at fired <;> cases fired
    exact Or.inl rfl
  | producer =>
    rw [fire, producerStep] at fired
    split at fired
    case h_4 => cases fired; exact Or.inr (Or.inl ⟨_, _, rfl⟩)
    all_goals first | (split at fired <;> cases fired <;> exact Or.inl rfl) | cases fired
    all_goals exact Or.inl rfl
  | consumer thread =>
    rw [fire, consumerStep] at fired
    dsimp only at fired
    split at fired
    case h_3 => cases fired; exact Or.inr (Or.inr ⟨_, _, rfl⟩)
    all_goals first | (split at fired <;> cases fired <;> exact Or.inl rfl) | cases fired
    all_goals exact Or.inl rfl

end Steps

end Invariant

end BoundedBuffer
