/-
**Runs of the store.**

`StoreOp` is a call of one of the store's functions with its arguments; the keys are those the
table has a bucket for. `StoreOp.exec` makes the call, `runOps` a whole sequence of them. A `Step`
remembers a call with the table it met and what came of it, and `Run` is a sequence of steps, each
from the table the one before it left.

`exec_total` is the step lemma the run lemmas build on: on a well-formed table no call faults, and
the table it leaves is well formed.
-/

import Kvs.Store.Spec

namespace Kvs.Server

/-- A call of a store function. -/
inductive StoreOp where
  | writePair (key : Key) (value : CStr)
  | deletePair (key : Key)
  | readPair (key : Key)
  | writeSubscription (key : Key) (fd : Fd)
  | deleteSubscription (key : Key) (fd : Fd)
  | disconnect (fd : Fd)
  | disconnectAll
deriving DecidableEq

/-- What a store function returns. -/
inductive Answer where
  | code (value : Int)
  | text (value : Option CStr)
deriving DecidableEq

/-- What comes of a call. -/
structure Outcome where
  answer : Answer
  table : HashTable
  notified : List Notification
deriving DecidableEq

/-- Make the call. -/
def StoreOp.exec : StoreOp → HashTable → Except Fault Outcome
  | writePair key value, ht =>
    (Server.writePair ht key.1 value).map fun (code, table, sent) => ⟨.code code, table, sent⟩
  | deletePair key, ht =>
    (Server.deletePair ht key.1).map fun (code, table, sent) => ⟨.code code, table, sent⟩
  | readPair key, ht => (Server.readPair ht key.1).map fun value => ⟨.text value, ht, []⟩
  | writeSubscription key fd, ht =>
    (Server.writeSubscription ht key.1 fd).map fun (code, table) => ⟨.code code, table, []⟩
  | deleteSubscription key fd, ht =>
    (Server.deleteSubscription ht key.1 fd).map fun (code, table) => ⟨.code code, table, []⟩
  | disconnect fd, ht =>
    .ok ⟨.code (Server.disconnect fd ht).1.toNat, (Server.disconnect fd ht).2, []⟩
  | disconnectAll, ht => .ok ⟨.code (Server.disconnectAll ht).1, (Server.disconnectAll ht).2, []⟩

/-- Make the calls of a list, one after another. -/
def runOps : List StoreOp → HashTable → Except Fault HashTable
  | [], ht => .ok ht
  | op :: ops, ht => do
    let outcome ← op.exec ht
    runOps ops outcome.table

theorem runOps_append (earlier later : List StoreOp) (ht : HashTable) :
    runOps (earlier ++ later) ht = (runOps earlier ht).bind (runOps later) := by
  induction earlier generalizing ht with
  | nil => rfl
  | cons op earlier ih =>
    show (op.exec ht).bind _ = ((op.exec ht).bind _).bind _
    cases op.exec ht with
    | error fault => rfl
    | ok outcome => exact ih outcome.table

/-! ### The subscription operations -/

/-- The call is about subscriptions only. -/
def StoreOp.isSubscription : StoreOp → Prop
  | writeSubscription _ _ | deleteSubscription _ _ | disconnect _ | disconnectAll => True
  | _ => False

/-- The value a call leaves at a key, given the one it met. -/
def StoreOp.effect (key : Key) : StoreOp → Option CStr → Option CStr
  | writePair other value, old => if other = key then some value else old
  | deletePair other, old => if other = key then none else old
  | _, old => old

/-- The value a table holds at a key. -/
def HashTable.valueAt (ht : HashTable) (key : Key) : Option CStr :=
  (ht.lookup key.1).map KeyNode.value

theorem readPair_eq (ht : HashTable) (key : Key) :
    Server.readPair ht key.1 = .ok (ht.valueAt key) :=
  readPair_spec ht key

/-- A value read off an updated map. -/
theorem update_value (map : CStr → Option KeyNode) (written key : Key) (node : Option KeyNode) :
    (Function.update map written.1 node key.1).map KeyNode.value =
      if written = key then node.map KeyNode.value else (map key.1).map KeyNode.value := by
  by_cases same : written = key
  · subst same
    rw [if_pos rfl, Function.update_self]
  · have different : key.1 ≠ written.1 := fun equal => same (Subtype.ext equal.symm)
    rw [if_neg same, Function.update_of_ne different]

/-- Rewriting a node without touching its value changes no value of the map. -/
theorem update_sameValue {ht : HashTable} {written : Key} {node node' : KeyNode}
    (present : ht.lookup written.1 = some node) (sameValue : node'.value = node.value) (key : Key) :
    (Function.update ht.lookup written.1 (some node') key.1).map KeyNode.value =
      ht.valueAt key := by
  rw [update_value]
  split
  · rename_i same
    subst same
    rw [HashTable.valueAt, present, Option.map_some, Option.map_some, sameValue]
  · rfl

/-- **One call.** It does not fault, keeps the invariant, and has its effect at every key. -/
theorem exec_total {ht : HashTable} (wf : ht.WellFormed) (op : StoreOp) :
    ∃ outcome, op.exec ht = .ok outcome ∧ outcome.table.WellFormed ∧
      ∀ key, outcome.table.valueAt key = op.effect key (ht.valueAt key) := by
  cases op with
  | writePair written value =>
    cases present : ht.lookup written.1 with
    | none =>
      obtain ⟨table, called, kept, mapped⟩ := writePair_absent wf written value present
      refine ⟨_, by rw [StoreOp.exec, called]; rfl, kept, fun key => ?_⟩
      rw [HashTable.valueAt, mapped, update_value]
      rfl
    | some node =>
      obtain ⟨table, called, kept, mapped⟩ := writePair_present wf written value present
      refine ⟨_, by rw [StoreOp.exec, called]; rfl, kept, fun key => ?_⟩
      rw [HashTable.valueAt, mapped, update_value]
      rfl
  | deletePair deleted =>
    cases present : ht.lookup deleted.1 with
    | none =>
      refine ⟨_, by rw [StoreOp.exec, deletePair_absent deleted present]; rfl, wf, fun key => ?_⟩
      show ht.valueAt key = if deleted = key then none else ht.valueAt key
      split
      · rename_i same
        subst same
        rw [HashTable.valueAt, present, Option.map_none]
      · rfl
    | some node =>
      obtain ⟨table, called, kept, mapped⟩ := deletePair_present wf deleted present
      refine ⟨_, by rw [StoreOp.exec, called]; rfl, kept, fun key => ?_⟩
      rw [HashTable.valueAt, mapped, update_value]
      rfl
  | readPair read =>
    exact ⟨_, by rw [StoreOp.exec, readPair_spec]; rfl, wf, fun key => rfl⟩
  | writeSubscription subscribed fd =>
    cases present : ht.lookup subscribed.1 with
    | none =>
      exact ⟨_, by rw [StoreOp.exec, writeSubscription_absent subscribed fd present]; rfl, wf,
        fun key => rfl⟩
    | some node =>
      obtain ⟨table, called, kept, mapped⟩ := writeSubscription_present wf subscribed fd present
      refine ⟨_, by rw [StoreOp.exec, called]; rfl, kept, fun key => ?_⟩
      rw [HashTable.valueAt, mapped]
      exact update_sameValue present (node.exchange_value 0 fd) key
  | deleteSubscription subscribed fd =>
    cases present : ht.lookup subscribed.1 with
    | none =>
      exact ⟨_, by rw [StoreOp.exec, deleteSubscription_absent subscribed fd present]; rfl, wf,
        fun key => rfl⟩
    | some node =>
      obtain ⟨table, called, kept, mapped⟩ := deleteSubscription_present wf subscribed fd present
      refine ⟨_, by rw [StoreOp.exec, called]; rfl, kept, fun key => ?_⟩
      rw [HashTable.valueAt, mapped]
      exact update_sameValue present (node.exchange_value fd 0) key
  | disconnect fd =>
    refine ⟨_, rfl, disconnect_wellFormed wf fd, fun key => ?_⟩
    rw [HashTable.valueAt, disconnect_lookup, Option.map_map]
    rfl
  | disconnectAll =>
    refine ⟨_, rfl, disconnectAll_wellFormed wf, fun key => ?_⟩
    rw [HashTable.valueAt, disconnectAll_lookup, Option.map_map]
    rfl

/-- A subscription call has no effect on values. -/
theorem effect_of_isSubscription {op : StoreOp} (subscription : op.isSubscription) (key : Key)
    (old : Option CStr) : op.effect key old = old := by
  cases op with
  | writePair => exact subscription.elim
  | deletePair => exact subscription.elim
  | readPair => rfl
  | writeSubscription => rfl
  | deleteSubscription => rfl
  | disconnect => rfl
  | disconnectAll => rfl

/-! ### Steps and runs -/

/-- A call, the table it met and what came of it. -/
structure Step where
  op : StoreOp
  before : HashTable
  outcome : Outcome
deriving DecidableEq

/-- A sequence of steps, each from the table the one before it left. -/
inductive Run (start : HashTable) : List Step → HashTable → Prop where
  | nil : Run start [] start
  | snoc {steps : List Step} {middle : HashTable} {op : StoreOp} {outcome : Outcome}
      (earlier : Run start steps middle) (called : op.exec middle = .ok outcome) :
      Run start (steps ++ [⟨op, middle, outcome⟩]) outcome.table

/-- Every table a run reaches from the empty table is well formed. -/
theorem Run.wellFormed {steps : List Step} {ht : HashTable} (run : Run createHashTable steps ht) :
    ht.WellFormed := by
  induction run with
  | nil => exact createHashTable_wellFormed
  | snoc earlier called ih =>
    obtain ⟨outcome, called', kept, _⟩ := exec_total ih _
    cases called.symm.trans called'
    exact kept

/-- Every step of a run meets a well-formed table and is what its call makes of it. -/
theorem Run.steps_called {steps : List Step} {ht : HashTable} (run : Run createHashTable steps ht) :
    ∀ step ∈ steps, step.before.WellFormed ∧ step.op.exec step.before = .ok step.outcome := by
  induction run with
  | nil => exact fun _ member => absurd member List.not_mem_nil
  | snoc earlier called ih =>
    intro step member
    rcases List.mem_append.mp member with member | member
    · exact ih step member
    · obtain rfl := List.mem_singleton.mp member
      exact ⟨earlier.wellFormed, called⟩

/-- The run up to a step leads to the table the step meets. -/
theorem Run.at_step {start ht : HashTable} {steps : List Step} (run : Run start steps ht)
    {earlier later : List Step} {step : Step} (split : steps = earlier ++ step :: later) :
    Run start earlier step.before ∧ step.op.exec step.before = .ok step.outcome := by
  induction run generalizing later with
  | nil => cases earlier <;> cases split
  | @snoc steps middle op outcome before called ih =>
    rcases List.eq_nil_or_concat later with rfl | ⟨later, last, rfl⟩
    · obtain ⟨rfl, same⟩ := List.append_inj' split rfl
      cases same
      exact ⟨before, called⟩
    · rw [List.concat_eq_append, ← List.cons_append, ← List.append_assoc] at split
      exact ih (List.append_inj' split rfl).1

/-- A run is the calls of its steps, made in order. -/
theorem Run.runOps {start ht : HashTable} {steps : List Step} (run : Run start steps ht) :
    runOps (steps.map Step.op) start = .ok ht := by
  induction run with
  | nil => rfl
  | snoc earlier called ih =>
    rw [List.map_append, runOps_append, ih]
    show (StoreOp.exec _ _).bind _ = _
    rw [called]
    rfl

/-- Every list of calls has a run from a well-formed table. -/
theorem run_exists {start : HashTable} (wf : start.WellFormed) (ops : List StoreOp) :
    ∃ steps ht, Run start steps ht ∧ steps.map Step.op = ops ∧ ht.WellFormed := by
  induction ops using List.reverseRecOn with
  | nil => exact ⟨[], start, .nil, rfl, wf⟩
  | append_singleton ops op ih =>
    obtain ⟨steps, middle, run, same, kept⟩ := ih
    obtain ⟨outcome, called, kept', _⟩ := exec_total kept op
    refine ⟨_, _, run.snoc called, ?_, kept'⟩
    rw [List.map_append, same]
    rfl

theorem runOps_total {start : HashTable} (wf : start.WellFormed) (ops : List StoreOp) :
    ∃ ht, Server.runOps ops start = .ok ht ∧ ht.WellFormed := by
  obtain ⟨steps, ht, run, same, kept⟩ := run_exists wf ops
  exact ⟨ht, same ▸ run.runOps, kept⟩

end Kvs.Server
