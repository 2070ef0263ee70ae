/-
**What a bounded buffer holds, and how far it gets.**

`contents` is what is on its way through a `BoundedBuffer`: the input the producer brings, the items
in the ring, and the copies the consumers have until they are done with them. A step brings one
item, takes one away or leaves the contents as they are (`producerStep_contents`,
`consumerStep_contents`).

`effort` bounds the steps to come while no input comes and no consumer is done with its copy;
`extra` is what a consumer does with a copy besides. When no such step is left either everything
brought is with the consumers, or they are all at work: `AtRest.handed`.
-/

import Kvs.Lib.BoundedBuffer

set_option linter.unusedSectionVars false

namespace BoundedBuffer

variable {ι α β τ : Type} {capacity : ℕ} {put : ι → α} {get : α → β}

/-! ### Who moves -/

section Moves

variable [DecidableEq τ] {system next : System ι α β τ capacity} {thread other : τ}

/-- A step of the producer moves no consumer. -/
theorem producerStep_consumers (stepped : producerStep put system = some next) :
    next.consumers = system.consumers := by
  rw [producerStep] at stepped
  split at stepped
  case h_1 => cases stepped
  all_goals first | (split at stepped <;> cases stepped; rfl) | (cases stepped; rfl)

/-- A step of a consumer moves no other. -/
theorem consumerStep_consumers (stepped : consumerStep get thread system = some next)
    (different : other ≠ thread) : next.consumers other = system.consumers other := by
  rw [consumerStep] at stepped
  dsimp only at stepped
  split at stepped
  all_goals first
    | (split at stepped <;> cases stepped; exact Function.update_of_ne different _ _)
    | (cases stepped; exact Function.update_of_ne different _ _)

end Moves

/-! ### Contents -/

/-- What the producer has still to store. -/
def Producer.carried (put : ι → α) (get : α → β) : Producer ι → Multiset β
  | .waiting input | .locking input | .storing input => {get (put input)}
  | _ => 0

/-- The copy a consumer has. -/
def Consumer.carried : Consumer β → Multiset β
  | .advancing copy | .unlocking copy | .posting copy | .working copy => {copy}
  | _ => 0

/-- The copy a consumer is done with on its next step. -/
def Consumer.doneWith : Consumer β → Multiset β
  | .working copy => {copy}
  | _ => 0

/-- What was stored and not copied out, oldest first. -/
def pendingItems (get : α → β) (history : List (Access capacity α β)) : List β :=
  ((storedItems history).map get).drop (copiedItems history).length

section Contents

variable (put get) [Fintype τ]

/-- What is on its way from the producer to the consumers, or with them. -/
def contents (system : System ι α β τ capacity) : Multiset β :=
  system.producer.carried put get + ↑(pendingItems get system.history) +
    ∑ thread, (system.consumers thread).carried

end Contents

section Steps

variable [Fintype τ] [DecidableEq τ] {system next : System ι α β τ capacity} {thread : τ}

theorem initially_contents [NeZero capacity] (memory : Fin capacity → α) :
    contents put get (initially memory : System ι α β τ capacity) = 0 := by
  show 0 + ↑([] : List β) + ∑ _ : τ, (0 : Multiset β) = 0
  rw [Finset.sum_const_zero]
  rfl

theorem produce_contents {input : ι} (produced : fire put get (.produce input) system = some next) :
    contents put get next = contents put get system + {get (put input)} := by
  rw [fire] at produced
  split at produced
  · rename_i idle
    cases produced
    rw [contents, contents, idle]
    show {get (put input)} + _ + _ = 0 + _ + _ + {get (put input)}
    rw [zero_add, add_assoc, add_comm]
  · cases produced

/-- A store puts its item behind the pending ones. -/
theorem pendingItems_stored (inv : Invariant get system) (slot : Fin capacity) (item : α) :
    pendingItems get (system.history ++ [.stored slot item]) =
      pendingItems get system.history ++ [get item] := by
  have within : (copiedItems system.history).length ≤
      ((storedItems system.history).map get).length := inv.copies.length_le
  rw [pendingItems, pendingItems, storedItems_stored, copiedItems_stored, List.map_append,
    List.drop_append_of_le_length within]
  rfl

/-- A copy takes the oldest. -/
theorem pendingItems_copied {slot : Fin capacity} {copy : β}
    (inv : Invariant get next) (same : next.history = system.history ++ [.copied slot copy]) :
    pendingItems get system.history = copy :: pendingItems get next.history := by
  obtain ⟨rest, split⟩ := inv.copies
  rw [same, storedItems_copied, copiedItems_copied] at split
  rw [pendingItems, pendingItems, same, storedItems_copied, copiedItems_copied, ← split,
    List.drop_left, List.append_assoc, List.drop_left]
  rfl

/-- **A step of the producer** leaves the contents as they are. -/
theorem producerStep_contents (inv : Invariant get system)
    (stepped : producerStep put system = some next) :
    contents put get next = contents put get system := by
  rw [producerStep] at stepped
  cases point : system.producer with
  | idle =>
    simp only [point] at stepped
    cases stepped
  | waiting input =>
    simp only [point] at stepped
    split at stepped <;> cases stepped
    rw [contents, contents, point]
    rfl
  | locking input =>
    simp only [point] at stepped
    split at stepped <;> cases stepped
    rw [contents, contents, point]
    rfl
  | storing input =>
    simp only [point] at stepped
    cases stepped
    rw [contents, contents, point, pendingItems_stored inv]
    show 0 + (↑(_ ++ [get (put input)]) : Multiset β) + _ = {get (put input)} + _ + _
    rw [← Multiset.coe_add, Multiset.coe_singleton, zero_add]
    exact congrArg (· + _) (add_comm _ _)
  | advancing =>
    simp only [point] at stepped
    cases stepped
    rw [contents, contents, point]
    rfl
  | unlocking =>
    simp only [point] at stepped
    cases stepped
    rw [contents, contents, point]
    rfl
  | posting =>
    simp only [point] at stepped
    cases stepped
    rw [contents, contents, point]
    rfl

/-- A consumer that moves on with what it has. -/
theorem contents_moved {point moved : Consumer β} (here : system.consumers thread = point)
    (consumers : next.consumers = Function.update system.consumers thread moved)
    (producer : next.producer = system.producer) (history : next.history = system.history)
    (same : moved.carried + point.doneWith = point.carried) :
    contents put get next + point.doneWith = contents put get system := by
  have sums := Interleaving.sum_update (fun _ => Consumer.carried) system.consumers thread moved
  rw [here, ← same, ← add_assoc, add_right_comm] at sums
  rw [contents, contents, consumers, producer, history, add_assoc]
  exact congrArg _ (add_right_cancel sums)

/-- The oldest item goes over to the consumer that copies it. -/
theorem copying_contents (here : system.consumers thread = .copying) {copy : β}
    (consumers : next.consumers = Function.update system.consumers thread (.advancing copy))
    (producer : next.producer = system.producer)
    (history : next.history = system.history ++ [.copied system.readIndex copy])
    (keeps : Invariant get next) : contents put get next = contents put get system := by
  have sums := Interleaving.sum_update (fun _ => Consumer.carried) system.consumers thread
    (.advancing copy)
  rw [here] at sums
  have one : ∑ other, (Function.update system.consumers thread (.advancing copy) other).carried =
      ∑ other, (system.consumers other).carried + {copy} := (add_zero _).symm.trans sums
  rw [contents, contents, pendingItems_copied keeps history, consumers, producer, one,
    ← Multiset.cons_coe, ← Multiset.singleton_add, ← add_assoc, ← add_assoc, add_right_comm,
    add_right_comm (Producer.carried _ _ _)]

/-- **A step of a consumer** takes away the copy it is done with, and nothing else. -/
theorem consumerStep_contents (inv : Invariant get system)
    (stepped : consumerStep get thread system = some next) :
    contents put get next + (system.consumers thread).doneWith = contents put get system := by
  have keeps := consumerStep_keeps inv stepped
  rw [consumerStep] at stepped
  cases point : system.consumers thread with
  | waiting =>
    simp only [point] at stepped
    split at stepped <;> cases stepped
    exact contents_moved point rfl rfl rfl rfl
  | locking =>
    simp only [point] at stepped
    split at stepped <;> cases stepped
    exact contents_moved point rfl rfl rfl rfl
  | copying =>
    simp only [point] at stepped
    cases stepped
    show contents put get _ + 0 = _
    rw [add_zero]
    exact copying_contents point rfl rfl rfl keeps
  | advancing copy =>
    simp only [point] at stepped
    cases stepped
    exact contents_moved point rfl rfl rfl (add_zero _)
  | unlocking copy =>
    simp only [point] at stepped
    cases stepped
    exact contents_moved point rfl rfl rfl (add_zero _)
  | posting copy =>
    simp only [point] at stepped
    cases stepped
    exact contents_moved point rfl rfl rfl (add_zero _)
  | working copy =>
    simp only [point] at stepped
    cases stepped
    exact contents_moved point rfl rfl rfl (zero_add _)

end Steps

/-! ### Effort -/

namespace Stage

/-- The steps to the end of a round. -/
def roundLeft : Stage → ℕ
  | away => 0
  | posting => 1
  | unlocking => 2
  | advancing => 3
  | accessing => 4
  | locking => 5
  | waiting => 6

/-- What a producer has still to do, and what the consumer of its item will have. -/
def brings (extra : ℕ) : Stage → ℕ
  | away => 0
  | stage => stage.roundLeft + (extra + 7)

/-- What a consumer that has taken an item has still to do. -/
def finishes (extra : ℕ) : Stage → ℕ
  | away | waiting => 0
  | stage => stage.roundLeft + (extra + 1)

end Stage

/-- What a consumer has to do with its copy when it gets to work. -/
def Consumer.starts (extra : ℕ) : Consumer β → ℕ
  | .working _ => extra
  | _ => 0

section Effort

variable [Fintype τ]

/-- A bound on the steps to come. -/
def effort (extra : ℕ) (system : System ι α β τ capacity) : ℕ :=
  system.producer.stage.brings extra + (extra + 7) * system.items +
    total (Stage.finishes extra) system.consumers

variable [DecidableEq τ] {system next : System ι α β τ capacity} {thread : τ} {extra : ℕ}

/-- An input is to be stored, and its item to be finished. -/
theorem produce_effort {input : ι} (produced : fire put get (.produce input) system = some next) :
    effort extra next = effort extra system + (extra + 13) := by
  rw [fire] at produced
  split at produced
  · rename_i idle
    cases produced
    rw [effort, effort, idle]
    simp only [Producer.stage, Stage.brings, Stage.roundLeft]
    omega
  · cases produced

/-- **A step of the producer** makes the effort smaller. -/
theorem producerStep_effort (stepped : producerStep put system = some next) :
    effort extra next < effort extra system := by
  rw [producerStep] at stepped
  cases point : system.producer <;> simp only [point] at stepped
  case idle => cases stepped
  case waiting | locking =>
    split at stepped <;> cases stepped
    simp only [effort, point, Producer.stage, Stage.brings, Stage.roundLeft]
    omega
  case posting =>
    cases stepped
    simp only [effort, point, Producer.stage, Stage.brings, Stage.roundLeft, Nat.mul_succ]
    omega
  all_goals
    cases stepped
    simp only [effort, point, Producer.stage, Stage.brings, Stage.roundLeft]
    omega

/-- A consumer that moves on. -/
theorem effort_moved {point moved : Consumer β} (here : system.consumers thread = point)
    (consumers : next.consumers = Function.update system.consumers thread moved)
    (producer : next.producer = system.producer)
    (less : moved.stage.finishes extra + moved.starts extra + (extra + 7) * next.items <
      point.stage.finishes extra + (extra + 7) * system.items) :
    effort extra next + (next.consumers thread).starts extra < effort extra system := by
  have sums := total_update (Stage.finishes extra) system.consumers thread moved
  have there : next.consumers thread = moved := by rw [consumers, Function.update_self]
  rw [here] at sums
  rw [there, effort, effort, consumers, producer]
  omega

/-- **A step of a consumer** that is not at work makes it smaller, by what it gets to do besides. -/
theorem consumerStep_effort (free : ∀ copy, system.consumers thread ≠ .working copy)
    (stepped : consumerStep get thread system = some next) :
    effort extra next + (next.consumers thread).starts extra < effort extra system := by
  rw [consumerStep] at stepped
  cases point : system.consumers thread <;> simp only [point] at stepped
  case working copy => exact absurd point (free copy)
  case waiting =>
    split at stepped
    · rename_i some
      cases stepped
      refine effort_moved point rfl rfl ?_
      obtain ⟨fewer, same⟩ : ∃ fewer, system.items = fewer + 1 := ⟨system.items - 1, by omega⟩
      simp only [same, Consumer.stage, Stage.finishes, Stage.roundLeft, Consumer.starts,
        Nat.mul_succ, Nat.add_sub_cancel]
      omega
    · cases stepped
  case locking =>
    split at stepped <;> cases stepped
    refine effort_moved point rfl rfl ?_
    simp only [Consumer.stage, Stage.finishes, Stage.roundLeft, Consumer.starts]
    omega
  all_goals
    cases stepped
    refine effort_moved point rfl rfl ?_
    simp only [Consumer.stage, Stage.finishes, Stage.roundLeft, Consumer.starts]
    omega

/-- A consumer that is done with its copy has no more to do. -/
theorem doneWith_effort {copy : β} (working : system.consumers thread = .working copy)
    (stepped : consumerStep get thread system = some next) :
    effort extra next = effort extra system := by
  simp only [consumerStep, working] at stepped
  cases stepped
  have sums := total_update (Stage.finishes extra) system.consumers thread .waiting
  rw [working] at sums
  exact congrArg (_ + ·) sums

end Effort

/-! ### At rest -/

section Rest

variable (put get) [DecidableEq τ]

/-- No step can be taken but by a consumer at work. -/
structure AtRest (system : System ι α β τ capacity) : Prop where
  producer : producerStep put system = none
  consumers : ∀ thread, (∀ copy, system.consumers thread ≠ .working copy) →
    consumerStep get thread system = none

end Rest

section Settled

variable [Fintype τ] [DecidableEq τ] {system : System ι α β τ capacity} {thread : τ}

/-- The holder of the lock can take a step. -/
theorem AtRest.free (rest : AtRest put get system) (inv : Invariant get system) :
    system.holder = none := by
  cases holder : system.holder with
  | none => rfl
  | some party =>
    cases party with
    | producer =>
      have inside := inv.producerHolds.mp holder
      have stuck := rest.producer
      cases point : system.producer <;> rw [point] at inside
      case storing | advancing | unlocking =>
        simp only [producerStep, point] at stuck
        cases stuck
      all_goals cases inside
    | consumer thread =>
      have inside := (inv.consumerHolds thread).mp holder
      have stuck : consumerStep get thread system = none := by
        refine rest.consumers thread fun copy working => ?_
        rw [working] at inside
        cases inside
      cases point : system.consumers thread <;> rw [point] at inside
      case copying | advancing | unlocking =>
        simp only [consumerStep, point] at stuck
        cases stuck
      all_goals cases inside

/-- A consumer at rest waits for an item or is at work. -/
theorem AtRest.consumer (rest : AtRest put get system) (free : system.holder = none)
    (thread : τ) : (system.consumers thread = .waiting ∧ system.items = 0) ∨
      ∃ copy, system.consumers thread = .working copy := by
  cases point : system.consumers thread with
  | working copy => exact .inr ⟨copy, rfl⟩
  | waiting =>
    have stuck := rest.consumers thread (by simp [point])
    simp only [consumerStep, point] at stuck
    split at stuck
    · cases stuck
    · exact .inl ⟨rfl, by omega⟩
  | locking =>
    have stuck := rest.consumers thread (by simp [point])
    simp only [consumerStep, point, if_pos free] at stuck
    cases stuck
  | copying =>
    have stuck := rest.consumers thread (by simp [point])
    simp only [consumerStep, point] at stuck
    cases stuck
  | advancing copy =>
    have stuck := rest.consumers thread (by simp [point])
    simp only [consumerStep, point] at stuck
    cases stuck
  | unlocking copy =>
    have stuck := rest.consumers thread (by simp [point])
    simp only [consumerStep, point] at stuck
    cases stuck
  | posting copy =>
    have stuck := rest.consumers thread (by simp [point])
    simp only [consumerStep, point] at stuck
    cases stuck

/-- The producer at rest is idle or waits for a space. -/
theorem AtRest.producer_waits (rest : AtRest put get system) (free : system.holder = none) :
    system.producer = .idle ∨ ∃ input, system.producer = .waiting input ∧ system.spaces = 0 := by
  have stuck := rest.producer
  rw [producerStep] at stuck
  cases point : system.producer <;> simp only [point] at stuck
  case idle => exact .inl rfl
  case waiting input =>
    split at stuck
    · cases stuck
    · exact .inr ⟨input, rfl, by omega⟩
  case locking =>
    rw [if_pos free] at stuck
    cases stuck
  all_goals cases stuck

/-- **At rest** everything brought has been handed to a consumer, or every consumer is at work. -/
theorem AtRest.handed (rest : AtRest put get system) (inv : Invariant get system)
    (positive : 0 < capacity) :
    (system.producer = .idle ∧ pendingItems get system.history = []) ∨
      ∀ thread, ∃ copy, system.consumers thread = .working copy := by
  have free := rest.free inv
  by_cases busy : ∀ thread, ∃ copy, system.consumers thread = .working copy
  · exact .inr busy
  obtain ⟨idler, idle⟩ := not_forall.mp busy
  have empty : system.items = 0 := ((rest.consumer free idler).resolve_right idle).2
  have none : ∀ weight : Stage → ℕ, weight .waiting = 0 → weight .away = 0 →
      total weight system.consumers = 0 := by
    intro weight waits away
    refine Finset.sum_eq_zero fun thread _ => ?_
    rcases rest.consumer free thread with ⟨point, _⟩ | ⟨copy, point⟩
    · rw [point]
      exact waits
    · rw [point]
      exact away
  have spaces := inv.spaces
  have items := inv.items
  rw [none _ rfl rfl] at spaces items
  rcases rest.producer_waits free with point | ⟨input, point, full⟩
  · refine .inl ⟨point, ?_⟩
    rw [point] at items
    simp only [Producer.stage, Stage.owed] at items
    rw [pendingItems, List.drop_of_length_le]
    rw [List.length_map]
    omega
  · rw [point] at items spaces
    simp only [Producer.stage, Stage.owed, Stage.reserved] at items spaces
    omega

end Settled

end BoundedBuffer
