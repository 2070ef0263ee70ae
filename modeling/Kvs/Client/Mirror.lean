/-
**A client's copy of a key.**

A client that keeps the last text printed for a key has a copy of the key's value: `mirror`. The
copy starts with the value the key had when the client subscribed. `InStep` says that it shows what
the table shows, and that the table will tell the client of the next change; `inStep_step` is the
step lemma, `inStep_run` follows a subscription along a run.

`mirror_follows` is about the whole system: whatever jobs and clients do, step by step, and however
the bytes are split on the way, the copy shows the value the key has, or `DELETED` once the key is
gone, for as long as the subscription lasts. A second slot taken by mistake makes the client print
some pairs twice; the copy does not notice.
-/

import Kvs.Client.Notifications
import Kvs.Concurrency.Runs

namespace Kvs.Client

open WhileLoop LockedCalls Server

/-! ### The copy -/

/-- The last text printed for a key, `text` before there is one. -/
def mirror (key text : CStr) (printed : List (CStr × CStr)) : CStr :=
  printed.foldl (fun text pair => if pair.1 = key then pair.2 else text) text

/-- What a subscriber is shown of a key: its value, or that it was deleted. -/
def shownBy (ht : HashTable) (key : Key) : CStr := (ht.valueAt key).getD deletedText

theorem mirror_append (key text : CStr) (earlier later : List (CStr × CStr)) :
    mirror key text (earlier ++ later) = mirror key (mirror key text earlier) later :=
  List.foldl_append

theorem mirror_replicate_self {key : CStr} (text shown : CStr) {times : ℕ} (told : times ≠ 0) :
    mirror key text (List.replicate times (key, shown)) = shown := by
  obtain ⟨fewer, rfl⟩ := Nat.exists_eq_succ_of_ne_zero told
  rw [List.replicate_succ', mirror_append]
  exact if_pos rfl

theorem mirror_replicate_other {key other : CStr} (different : other ≠ key) (text shown : CStr)
    (times : ℕ) : mirror key text (List.replicate times (other, shown)) = text := by
  induction times with
  | zero => rfl
  | succ times ih =>
    rw [List.replicate_succ', mirror_append, ih]
    exact if_neg different

/-! ### Being told -/

/-- The copy shows what the table shows, and the descriptor has a slot as long as there is a node
for the key. -/
structure InStep (key : Key) (fd : Fd) (ht : HashTable) (text : CStr) : Prop where
  held : ∀ node, ht.lookup key.1 = some node → fd ∈ node.subscribersFds.fds
  shown : text = shownBy ht key

section Step

variable {key : Key} {fd : Fd} {ht table : HashTable} {text : CStr}

theorem shownBy_congr (same : table.lookup key.1 = ht.lookup key.1) :
    shownBy table key = shownBy ht key := by
  rw [shownBy, shownBy, HashTable.valueAt, HashTable.valueAt, same]

/-- A table that has the same node for the key. -/
theorem InStep.congr (inStep : InStep key fd ht text)
    (same : table.lookup key.1 = ht.lookup key.1) : InStep key fd table text :=
  ⟨fun node present => inStep.held node (same ▸ present),
    inStep.shown.trans (shownBy_congr same).symm⟩

/-- A change elsewhere in the map. -/
theorem InStep.elsewhere (inStep : InStep key fd ht text) {written : Key} {new : Option KeyNode}
    (different : written ≠ key) (mapped : table.lookup = Function.update ht.lookup written.1 new) :
    InStep key fd table text := by
  refine inStep.congr ?_
  rw [mapped, Function.update_of_ne fun same => different (Subtype.ext same.symm)]

/-- The descriptor's slots are counted. -/
theorem InStep.slotsHeld_ne_zero (inStep : InStep key fd ht text) {node : KeyNode}
    (present : ht.lookup key.1 = some node) : slotsHeld fd ht key ≠ 0 := by
  rw [slotsHeld, present, Option.map_some, Option.getD_some]
  exact (List.count_pos_iff.mpr (inStep.held node present)).ne'

theorem mem_exchange_of_mem {node : KeyNode} {old new : Fd} (inside : fd ∈ node.subscribersFds.fds)
    (different : fd ≠ old) : fd ∈ (node.exchange old new).subscribersFds.fds := by
  by_cases there : old ∈ node.subscribersFds.fds
  · have moved := KeyNode.held_exchange new fd there
    rw [if_neg (Ne.symm different)] at moved
    have before : 0 < node.subscribersFds.held fd := List.count_pos_iff.mpr inside
    exact List.count_pos_iff.mp (show 0 < (node.exchange old new).subscribersFds.held fd by omega)
  · rwa [KeyNode.exchange_of_not_mem there]

/-- The node keeps its value, and the descriptor its slot. -/
theorem InStep.exchanged (inStep : InStep key fd ht text) {written : Key} {node : KeyNode}
    {old new : Fd} (present : ht.lookup written.1 = some node)
    (mapped : table.lookup =
      Function.update ht.lookup written.1 (some (node.exchange old new)))
    (keeps : written = key → fd ≠ old ∨ old ∉ node.subscribersFds.fds) :
    InStep key fd table text := by
  by_cases same : written = key
  · subst same
    have here : table.lookup written.1 = some (node.exchange old new) := by
      rw [mapped, Function.update_self]
    refine ⟨fun found there => ?_, ?_⟩
    · obtain rfl := Option.some.inj (here.symm.trans there)
      rcases keeps rfl with different | absent
      · exact mem_exchange_of_mem (inStep.held node present) different
      · rw [KeyNode.exchange_of_not_mem absent]
        exact inStep.held node present
    · rw [inStep.shown, shownBy, shownBy, HashTable.valueAt, HashTable.valueAt, here, present,
        Option.map_some, Option.map_some, KeyNode.exchange_value]
  · exact inStep.elsewhere same mapped

theorem inStep_writePair (wf : ht.WellFormed) (inStep : InStep key fd ht text) {written : Key}
    {value : CStr} {outcome : Outcome}
    (called : (StoreOp.writePair written value).exec ht = .ok outcome)
    (stays : ¬ (Step.mk (.writePair written value) ht outcome).ends key fd) :
    InStep key fd outcome.table
      (mirror key.1 text (tells fd ⟨.writePair written value, ht, outcome⟩)) := by
  show InStep key fd outcome.table
    (mirror key.1 text (List.replicate (slotsHeld fd ht written) (written.1, value)))
  cases present : ht.lookup written.1 with
  | none =>
    obtain ⟨table, call, _, mapped⟩ := writePair_absent wf written value present
    rw [StoreOp.exec, call] at called
    cases called
    have unheld : slotsHeld fd ht written = 0 := by rw [slotsHeld, present]; rfl
    rw [unheld]
    refine inStep.elsewhere (fun same => stays ⟨same, ?_⟩) mapped
    rw [← same, HashTable.valueAt, present, Option.map_none]
  | some node =>
    obtain ⟨table, call, _, mapped⟩ := writePair_present wf written value present
    rw [StoreOp.exec, call] at called
    cases called
    by_cases same : written = key
    · subst same
      have here : table.lookup written.1 = some { node with value := value } := by
        rw [mapped, Function.update_self]
      rw [mirror_replicate_self _ _ (inStep.slotsHeld_ne_zero present)]
      refine ⟨fun found there => ?_, ?_⟩
      · obtain rfl := Option.some.inj (here.symm.trans there)
        exact inStep.held node present
      · rw [shownBy, HashTable.valueAt, here]
        rfl
    · rw [mirror_replicate_other fun equal => same (Subtype.ext equal)]
      exact inStep.elsewhere same mapped

theorem inStep_deletePair (wf : ht.WellFormed) (inStep : InStep key fd ht text) {deleted : Key}
    {outcome : Outcome} (called : (StoreOp.deletePair deleted).exec ht = .ok outcome) :
    InStep key fd outcome.table
      (mirror key.1 text (tells fd ⟨.deletePair deleted, ht, outcome⟩)) := by
  show InStep key fd outcome.table
    (mirror key.1 text (List.replicate (slotsHeld fd ht deleted) (deleted.1, deletedText)))
  cases present : ht.lookup deleted.1 with
  | none =>
    rw [StoreOp.exec, deletePair_absent deleted present] at called
    cases called
    have unheld : slotsHeld fd ht deleted = 0 := by rw [slotsHeld, present]; rfl
    rw [unheld]
    exact inStep
  | some node =>
    obtain ⟨table, call, _, mapped⟩ := deletePair_present wf deleted present
    rw [StoreOp.exec, call] at called
    cases called
    by_cases same : deleted = key
    · subst same
      have here : table.lookup deleted.1 = none := by rw [mapped, Function.update_self]
      rw [mirror_replicate_self _ _ (inStep.slotsHeld_ne_zero present)]
      refine ⟨fun found there => ?_, ?_⟩
      · cases here.symm.trans there
      · rw [shownBy, HashTable.valueAt, here]
        rfl
    · rw [mirror_replicate_other fun equal => same (Subtype.ext equal)]
      exact inStep.elsewhere same mapped

/-- **The step lemma.** A call that does not end the subscription keeps the copy in step. -/
theorem inStep_step (wf : ht.WellFormed) (nonzero : fd ≠ 0) (inStep : InStep key fd ht text)
    {op : StoreOp} {outcome : Outcome} (called : op.exec ht = .ok outcome)
    (stays : ¬ (Step.mk op ht outcome).ends key fd) :
    InStep key fd outcome.table (mirror key.1 text (tells fd ⟨op, ht, outcome⟩)) := by
  cases op with
  | writePair written value => exact inStep_writePair wf inStep called stays
  | deletePair deleted => exact inStep_deletePair wf inStep called
  | readPair read =>
    rw [StoreOp.exec, readPair_spec] at called
    cases called
    exact inStep
  | writeSubscription subscribed added =>
    show InStep key fd outcome.table text
    cases present : ht.lookup subscribed.1 with
    | none =>
      rw [StoreOp.exec, writeSubscription_absent subscribed added present] at called
      cases called
      exact inStep
    | some node =>
      obtain ⟨table, call, _, mapped⟩ := writeSubscription_present wf subscribed added present
      rw [StoreOp.exec, call] at called
      cases called
      exact inStep.exchanged present mapped fun _ => .inl nonzero
  | deleteSubscription unsubscribed removed =>
    show InStep key fd outcome.table text
    cases present : ht.lookup unsubscribed.1 with
    | none =>
      rw [StoreOp.exec, deleteSubscription_absent unsubscribed removed present] at called
      cases called
      exact inStep
    | some node =>
      obtain ⟨table, call, _, mapped⟩ := deleteSubscription_present wf unsubscribed removed present
      rw [StoreOp.exec, call] at called
      cases called
      refine inStep.exchanged present mapped fun same => ?_
      by_cases inside : removed ∈ node.subscribersFds.fds
      · exact .inl fun equal => stays ⟨same, equal.symm, by simp [inside]⟩
      · exact .inr inside
  | disconnect gone =>
    cases called
    refine ⟨fun node found => ?_, inStep.shown.trans ?_⟩
    · rw [disconnect_lookup] at found
      obtain ⟨node₀, present, rfl⟩ := Option.map_eq_some_iff.mp found
      have kept := Slots.held_remove_of_ne nonzero (Ne.symm stays) node₀.subscribersFds
      have before : 0 < node₀.subscribersFds.held fd :=
        List.count_pos_iff.mpr (inStep.held node₀ present)
      exact List.count_pos_iff.mp (show 0 < (node₀.subscribersFds.remove gone).held fd by omega)
    · rw [shownBy, shownBy, HashTable.valueAt, HashTable.valueAt, disconnect_lookup,
        Option.map_map]
      rfl
  | disconnectAll => exact absurd trivial stays

/-- A subscription that succeeds starts in step with the table. -/
theorem inStep_subscribes (wf : ht.WellFormed) {op : StoreOp} {outcome : Outcome}
    (called : op.exec ht = .ok outcome) (subscribes : (Step.mk op ht outcome).subscribes key fd) :
    InStep key fd outcome.table (shownBy ht key) := by
  obtain ⟨rfl, answered⟩ := subscribes
  cases present : ht.lookup key.1 with
  | none =>
    rw [StoreOp.exec, writeSubscription_absent key fd present] at called
    cases called
    cases answered
  | some node =>
    obtain ⟨table, call, _, mapped⟩ := writeSubscription_present wf key fd present
    rw [StoreOp.exec, call] at called
    cases called
    have room : 0 ∈ node.subscribersFds.fds := by
      by_contra full
      rw [if_neg full] at answered
      cases answered
    have here : table.lookup key.1 = some (node.exchange 0 fd) := by
      rw [mapped, Function.update_self]
    refine ⟨fun found there => ?_, ?_⟩
    · obtain rfl := Option.some.inj (here.symm.trans there)
      have moved := KeyNode.held_exchange fd fd room
      rw [if_pos rfl] at moved
      refine List.count_pos_iff.mp (show 0 < (node.exchange 0 fd).subscribersFds.held fd from ?_)
      have zeros : 0 < node.subscribersFds.held 0 := List.count_pos_iff.mpr room
      split at moved
      · rename_i zero
        subst zero
        omega
      · omega
    · rw [shownBy, shownBy, HashTable.valueAt, HashTable.valueAt, here, present, Option.map_some,
        Option.map_some, KeyNode.exchange_value]

end Step

/-! ### Along a run -/

/-- **The run lemma.** From a subscription on, while it lasts, the copy is in step. -/
theorem inStep_run {key : Key} {fd : Fd} (nonzero : fd ≠ 0) {steps : List Step} {ht : HashTable}
    (run : Run createHashTable steps ht) {earlier later : List Step} {opening : Step}
    (split : steps = earlier ++ opening :: later) (subscribes : opening.subscribes key fd)
    (lasts : ∀ step ∈ later, ¬ step.ends key fd) :
    InStep key fd ht (mirror key.1 (shownBy opening.before key) (later.flatMap (tells fd))) := by
  induction run generalizing later with
  | nil => cases earlier <;> cases split
  | @snoc steps middle op outcome before called ih =>
    rcases List.eq_nil_or_concat later with rfl | ⟨sooner, last, rfl⟩
    · obtain ⟨rfl, same⟩ := List.append_inj' split rfl
      cases same
      exact inStep_subscribes before.wellFormed called subscribes
    · rw [List.concat_eq_append] at split lasts ⊢
      rw [← List.cons_append, ← List.append_assoc] at split
      obtain ⟨same, lastSame⟩ := List.append_inj' split rfl
      cases lastSame
      have inStep := ih same fun step member => lasts step (List.mem_append_left _ member)
      rw [List.flatMap_append, List.flatMap_singleton, mirror_append]
      exact inStep_step before.wellFormed nonzero inStep called (lasts _ (by simp))

/-- A run of calls with short strings. -/
theorem opRun_of_run {steps : List Step} {ht : HashTable} (run : Run createHashTable steps ht)
    (short : ∀ op ∈ steps.map Step.op, Short op) : ∃ ops, OpRun ops steps ht := by
  have lifted : ∃ ops : List ShortOp, ops.map Subtype.val = steps.map Step.op :=
    CanLift.prf (steps.map Step.op) short
  obtain ⟨ops, same⟩ := lifted
  exact ⟨ops, run, same.symm⟩

/-! ### The whole system -/

/-- How many frames these steps sent to a descriptor. -/
def framesSent (fd : Fd) (steps : List Step) : ℕ :=
  framesTo fd (steps.flatMap fun step => step.outcome.notified)

/-- The copy a client makes of the pairs printed since it subscribed shows what the table shows,
whenever these steps subscribe its descriptor to a key and do not end the subscription. -/
def MirrorFollows (steps : List Step) (ht : HashTable) : Prop :=
  ∀ (key : Key) (fd : ClientFd) (earlier : List Step) (opening : Step) (later : List Step),
    steps = earlier ++ opening :: later → opening.subscribes key fd.1 →
    (∀ step ∈ later, ¬ step.ends key fd.1) →
    ∀ writes reads : List Delivery, ∃ pipe result,
      deliver fd.1 (steps.flatMap fun step => step.outcome.notified)
        ⟨[], writes.map Subtype.val⟩ .zero = some pipe ∧
      Returns getNotification ⟨⟨pipe.sent, reads.map Subtype.val⟩, .zero, []⟩ result ∧
      mirror key.1 (shownBy opening.before key)
        (result.printed.drop (framesSent fd.1 (earlier ++ [opening]))) = shownBy ht key

/-- The pairs told are as many as the frames sent. -/
theorem framesSent_eq {fd : Fd} (nonzero : fd ≠ 0) {steps : List Step}
    (called : ∀ step ∈ steps, step.before.WellFormed ∧
      step.op.exec step.before = .ok step.outcome) :
    framesSent fd steps = (steps.flatMap (tells fd)).length := by
  have filtered : ∀ sent : List Notification,
      framesTo fd sent = (sent.filter fun notification => notification.fd = fd).length := by
    intro sent
    rw [framesTo, List.count_eq_countP, List.countP_map, List.countP_eq_length_filter]
    rfl
  rw [framesSent, filtered, List.filter_flatMap, List.length_flatMap, List.length_flatMap]
  refine congrArg List.sum (List.map_congr_left fun step member => ?_)
  obtain ⟨wf, made⟩ := called step member
  rw [notified_filter nonzero wf made, List.length_map]

theorem mirrorFollows_of_run {steps : List Step} {ht : HashTable}
    (run : Run createHashTable steps ht) (short : ∀ op ∈ steps.map Step.op, Short op) :
    MirrorFollows steps ht := by
  intro key fd earlier opening later split subscribes lasts writes reads
  obtain ⟨ops, opRun⟩ := opRun_of_run run short
  obtain ⟨pipe, result, delivered, returns, printed⟩ := prints_tells fd opRun writes reads
  refine ⟨pipe, result, delivered, returns, ?_⟩
  have before : steps = (earlier ++ [opening]) ++ later := by rw [split]; simp
  have sent : framesSent fd.1 (earlier ++ [opening]) =
      ((earlier ++ [opening]).flatMap (tells fd.1)).length :=
    framesSent_eq fd.2 fun step member =>
      run.steps_called step (before ▸ List.mem_append_left _ member)
  rw [printed, before, List.flatMap_append, sent, List.drop_left]
  exact (inStep_run fd.2 run split subscribes lasts).shown

/-- **A client's copy follows the table** in every interleaving of the operations of any number of
threads, whenever no thread holds the lock. -/
theorem mirror_follows {τ : Type} [DecidableEq τ] {events : List (Event Operation τ)}
    {system : System Operation Shared Point Reply BackupChild τ}
    (ran : interleave kvsMachine events (initially kvsInit) = some system)
    (free : system.holder = none)
    (short : ∀ op ∈ system.acquired.flatMap Operation.ops, Short op) :
    ∃ steps, IsRun system steps ∧ MirrorFollows steps system.shared.table := by
  obtain ⟨steps, isRun⟩ := interleave_run ran free
  exact ⟨steps, isRun, mirrorFollows_of_run isRun.run (isRun.ops ▸ short)⟩

/-- A key is written; a client subscribes to it while a job waits to delete it. -/
def writtenAndDeleted : List (Event Operation ℕ) :=
  [.call 0 (.write [(keyA.1, valueAnna)]), .advance 0 true, .advance 0 true, .advance 0 true,
    .advance 0 true, .call 1 (.subscribe keyA.1 clientFd.1), .call 0 (.delete [keyA.1]),
    .advance 1 true, .advance 1 true, .advance 1 true, .advance 0 true, .advance 1 true,
    .advance 0 true, .advance 0 true, .advance 0 true]

/-- The subscriber's copy after that. -/
theorem mirror_follows_deleted :
    ∃ system, interleave kvsMachine writtenAndDeleted
        (initially kvsInit : System Operation Shared Point Reply BackupChild ℕ) = some system ∧
      ∃ steps, IsRun system steps ∧ MirrorFollows steps system.shared.table := by
  have reached : ((interleave kvsMachine writtenAndDeleted
      (initially kvsInit : System Operation Shared Point Reply BackupChild ℕ)).map fun system =>
        (system.holder, system.acquired)) =
      some (none, [.write [(keyA.1, valueAnna)], .subscribe keyA.1 clientFd.1,
        .delete [keyA.1]]) := by
    decide +kernel
  obtain ⟨system, ran, same⟩ := Option.map_eq_some_iff.mp reached
  obtain ⟨free, acquired⟩ := Prod.mk.inj same
  refine ⟨system, ran, mirror_follows ran free ?_⟩
  rw [acquired]
  show ∀ op ∈ [StoreOp.writePair keyA valueAnna, .writeSubscription keyA clientFd.1,
    .deletePair keyA], Short op
  refine List.forall_mem_cons.mpr ⟨⟨by decide, by decide⟩, List.forall_mem_cons.mpr
    ⟨trivial, List.forall_mem_singleton.mpr ?_⟩⟩
  exact show keyA.1.length < maxStringSize by decide

end Kvs.Client
