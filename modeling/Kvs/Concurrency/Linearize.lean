/-
**The store is a ledger to its callers.**

`Atomicity` puts the operations of an interleaving in an order; `Ledger` says what the table's
functions do and write in terms of a ledger. Together: `Operation.change` and `Operation.answer` say
what an operation is for, on the ledger alone, and in every interleaving of threads and backup
children each reply and each backup file is what the ledger gives at the operation's turn
(`operations_linearize`). The buckets, the walks through them and the pairs written one by one
cannot be seen.
-/

import Kvs.Concurrency.Progress
import Kvs.Store.Ledger

namespace Kvs.Server

open LockedCalls

/-! ### Operations on the ledger -/

namespace Operation

/-- What an operation does to the ledger. -/
def change : Operation → Ledger → Ledger
  | write pairs, ledger => ledger.writeAll pairs
  | delete keys, ledger => ledger.eraseAll keys
  | _, ledger => ledger

/-- What an operation answers. `granted` is what is not for the ledger to say: that `fork` succeeds,
that a node has a free slot for a subscriber, or that it has the one to take away. -/
def answer (granted : Bool) : Operation → Ledger → Reply
  | write _, _ | disconnectAll, _ => ⟨.code 0, []⟩
  | read keys, ledger => ⟨.code 0, ledger.readReply keys⟩
  | delete keys, ledger => ⟨.code 0, ledger.deleteReply keys⟩
  | «show», ledger => ⟨.nothing, ledger.listing⟩
  | backup, _ => ⟨.code (if granted then 0 else -1), []⟩
  | subscribe key _, ledger =>
    ⟨.char (if key ∈ ledger ∧ granted then '1'.toUInt8 else '0'.toUInt8), []⟩
  | unsubscribe key _, ledger =>
    ⟨.char (if key ∈ ledger ∧ granted then '0'.toUInt8 else '1'.toUInt8), []⟩
  | disconnect _, _ => ⟨.char '0'.toUInt8, []⟩

end Operation

/-- The ledger after operations. -/
def Ledger.after (operations : List Operation) (ledger : Ledger) : Ledger :=
  operations.foldl (fun ledger operation => operation.change ledger) ledger

/-- **One operation** executed whole. -/
theorem perform_linear {shared after : Shared} {ledger : Ledger}
    (holds : shared.table.Holds ledger) {operation : Operation}
    (alnum : ∀ key ∈ operation.keys, startsAlnum key) {forks : Bool} {reply : Reply}
    (performed : operation.perform forks shared = .ok (reply, after)) :
    (∃ granted, reply = operation.answer granted ledger) ∧
      after.table.Holds (operation.change ledger) := by
  cases operation with
  | write pairs =>
    obtain ⟨final, wrote, held⟩ := kvsWrite_holds holds fun pair member =>
      alnum pair.1 (List.mem_map_of_mem member)
    rw [Operation.perform, wrote] at performed
    cases performed
    exact ⟨⟨true, rfl⟩, held⟩
  | read keys =>
    have answered : kvsRead keys shared = _ := kvsRead_holds holds alnum
    rw [Operation.perform, answered] at performed
    cases performed
    exact ⟨⟨true, rfl⟩, holds⟩
  | delete keys =>
    have done : ∃ final, kvsDelete keys shared = _ ∧ _ := kvsDelete_holds holds alnum
    obtain ⟨final, deleted, held⟩ := done
    rw [Operation.perform, deleted] at performed
    cases performed
    exact ⟨⟨true, rfl⟩, held⟩
  | «show» =>
    rw [Operation.perform, kvsShow_holds holds] at performed
    cases performed
    exact ⟨⟨true, rfl⟩, holds⟩
  | backup =>
    cases performed
    exact ⟨⟨forks, by cases forks <;> rfl⟩, holds⟩
  | subscribe key fd =>
    have start := alnum key (List.mem_singleton_self key)
    obtain ⟨outcome, called, acts⟩ := exec_acts (.writeSubscription ⟨key, start⟩ fd) shared.table
    obtain ⟨⟨code, table⟩, written, rfl⟩ := map_ok_inv called
    have held : table.Holds ledger := acts.holds holds
    have written : writeSubscription shared.table key fd = .ok (code, table) := written
    rw [Operation.perform, subscribe, written] at performed
    cases performed
    refine ⟨?_, held⟩
    cases acts with
    | @subscribed _ index before chain node _ found =>
      refine ⟨0 ∈ node.subscribersFds.fds, ?_⟩
      have present : key ∈ ledger := found.mem_ledger holds
      by_cases free : 0 ∈ node.subscribersFds.fds <;> simp [Operation.answer, present, free]
    | notSubscribed _ missing =>
      have absent : key ∉ ledger := missing.notMem_ledger holds
      exact ⟨true, by simp [Operation.answer, absent]⟩
  | unsubscribe key fd =>
    have start := alnum key (List.mem_singleton_self key)
    obtain ⟨outcome, called, acts⟩ := exec_acts (.deleteSubscription ⟨key, start⟩ fd) shared.table
    obtain ⟨⟨code, table⟩, written, rfl⟩ := map_ok_inv called
    have held : table.Holds ledger := acts.holds holds
    have written : deleteSubscription shared.table key fd = .ok (code, table) := written
    rw [Operation.perform, unsubscribe, written] at performed
    cases performed
    refine ⟨?_, held⟩
    cases acts with
    | @unsubscribed _ index before chain node _ found =>
      refine ⟨fd ∈ node.subscribersFds.fds, ?_⟩
      have present : key ∈ ledger := found.mem_ledger holds
      by_cases there : fd ∈ node.subscribersFds.fds <;> simp [Operation.answer, present, there]
    | notUnsubscribed _ missing =>
      have absent : key ∉ ledger := missing.notMem_ledger holds
      exact ⟨true, by simp [Operation.answer, absent]⟩
  | disconnect fd =>
    cases performed
    exact ⟨⟨true, rfl⟩, holds_mapNodes holds _ fun _ => rfl⟩
  | disconnectAll =>
    cases performed
    exact ⟨⟨true, rfl⟩, holds_mapNodes holds _ fun _ => rfl⟩

/-- **The run lemma.** Operations executed whole, one after another. -/
theorem serially_linear {initial final : Shared} {ledger : Ledger}
    {outcomes : List (LockedCalls.Outcome Operation Reply)} (holds : initial.table.Holds ledger)
    (alnum : ∀ outcome ∈ outcomes, ∀ key ∈ outcome.call.keys, startsAlnum key)
    (serial : Serially initial outcomes final) :
    final.table.Holds (ledger.after (outcomes.map LockedCalls.Outcome.call)) ∧
      ∀ (ticket : ℕ) outcome, outcomes[ticket]? = some outcome → ∃ granted,
        outcome.result = outcome.call.answer granted
          (ledger.after ((outcomes.take ticket).map LockedCalls.Outcome.call)) := by
  induction serial with
  | nil => exact ⟨holds, nofun⟩
  | @snoc outcomes middle final operation reply forks earlier performed ih =>
    obtain ⟨alnumEarlier, alnumLast⟩ := List.forall_mem_append.mp alnum
    obtain ⟨held, answered⟩ := ih alnumEarlier
    obtain ⟨answer, after⟩ :=
      perform_linear held (alnumLast _ (List.mem_singleton_self _)) performed
    constructor
    · rw [List.map_append, Ledger.after, List.foldl_append]
      exact after
    · intro ticket outcome there
      rcases lt_or_ge ticket outcomes.length with before | last
      · rw [List.getElem?_append_left before] at there
        rw [List.take_append_of_le_length before.le]
        exact answered ticket outcome there
      · have inside := (List.getElem?_eq_some_iff.mp there).1
        rw [List.length_append, List.length_singleton] at inside
        obtain rfl : ticket = outcomes.length := by omega
        rw [List.getElem?_concat_length] at there
        cases there
        rw [List.take_left]
        exact answer

/-! ### Interleavings -/

/-- What the threads and the children have seen is one ledger, changed at each operation's turn. -/
structure Linearized {τ : Type} (ledger : Ledger) (system : KvsSystem τ) : Prop where
  table : system.holder = none → system.shared.table.Holds (ledger.after system.acquired)
  returned : ∀ entry ∈ system.returned, ∃ operation granted,
    system.acquired[entry.1]? = some operation ∧
      entry.2 = operation.answer granted (ledger.after (system.acquired.take entry.1))
  backups : ∀ entry ∈ system.children, entry.2.Exited → system.acquired[entry.1]? = some .backup ∧
    entry.2.out = (ledger.after (system.acquired.take entry.1)).listing

/-- What a system's operations have done, run one after another, is seen as one ledger. -/
theorem linearized {τ : Type} [DecidableEq τ] {initial state : Shared} {ledger : Ledger}
    {system : KvsSystem τ} {outcomes : List (LockedCalls.Outcome Operation Reply)}
    (holds : initial.table.Holds ledger)
    (alnum : ∀ operation ∈ system.acquired, ∀ key ∈ operation.keys, startsAlnum key)
    (kept : LockedCalls.Invariant kvsMachine initial system outcomes state) :
    Linearized ledger system := by
  obtain ⟨rest, acquired⟩ := kept.acquired
  have keyed : ∀ outcome ∈ outcomes, ∀ key ∈ outcome.call.keys, startsAlnum key := by
    intro outcome member
    refine alnum outcome.call ?_
    rw [acquired]
    exact List.mem_append_left _ (List.mem_map_of_mem member)
  obtain ⟨held, answered⟩ := serially_linear holds keyed (serially_of_serial kept.serial)
  refine ⟨fun free => ?_, fun entry member => ?_, fun entry member exited => ?_⟩
  · obtain ⟨same, all⟩ := kept.free free
    rw [same, all]
    exact held
  · obtain ⟨outcome, there, result⟩ := kept.returned entry member
    have inside := (List.getElem?_eq_some_iff.mp there).1
    obtain ⟨granted, answer⟩ := answered entry.1 outcome there
    refine ⟨outcome.call, granted, ?_, ?_⟩
    · rw [acquired, List.getElem?_append_left (by rwa [List.length_map]), List.getElem?_map, there]
      rfl
    · rw [kept.acquired_take inside.le, ← result]
      exact answer
  · obtain ⟨before, operation, config, first, within, serial, turn, alone, made, gone⟩ :=
      kept.children entry member
    obtain ⟨rfl, rfl⟩ := (forksAtTurn_run alone).spawned first made
    have earlier := (serially_linear holds (fun outcome member =>
      keyed outcome (List.mem_of_mem_take member)) (serially_of_serial serial)).1
    refine ⟨turn, ?_⟩
    rw [child_out gone exited, backupContent_holds earlier, kept.acquired_take within]

/-- **The store is a ledger**, in every interleaving of any number of threads and backup children:
in the order in which the operations took the lock, each answers from the ledger those before it
have left, and a backup file lists the ledger of its turn. -/
theorem operations_linearize {τ : Type} [DecidableEq τ] {initial : Shared} {ledger : Ledger}
    {events : List (Event Operation τ)} {system : KvsSystem τ}
    (holds : initial.table.Holds ledger)
    (alnum : ∀ thread operation, Event.call thread operation ∈ events →
      ∀ key ∈ operation.keys, startsAlnum key)
    (ran : interleave kvsMachine events (initially initial) = some system) :
    Linearized ledger system := by
  obtain ⟨outcomes, state, kept⟩ := interleave_serial ran
  exact linearized holds (interleave_wanted (initially_wanted initial) alnum ran).acquired kept

/-- A writer of `(a,anna)` and a reader of `a` that starts while the writer holds the lock. -/
def writerReader : List (Event Operation ℕ) :=
  [.call 0 (.write [(keyA.1, valueAnna)]), .advance 0 true, .call 1 (.read [keyA.1]),
    .advance 0 true, .advance 0 true, .advance 1 true, .advance 1 true, .advance 1 true,
    .advance 1 true, .advance 1 true, .advance 1 true]

theorem operations_linearize_writerReader : ∃ system : KvsSystem ℕ,
    interleave kvsMachine writerReader (initially kvsInit) = some system ∧
      Linearized ∅ system := by
  obtain ⟨system, ran⟩ := Option.isSome_iff_exists.mp
    (show (interleave kvsMachine writerReader (initially kvsInit)).isSome by decide)
  refine ⟨system, ran, operations_linearize createHashTable_holds ?_ ran⟩
  intro thread operation member
  simp only [writerReader, List.mem_cons, List.not_mem_nil, or_false, reduceCtorEq, false_or,
    Event.call.injEq] at member
  rcases member with ⟨-, rfl⟩ | ⟨-, rfl⟩ <;> decide

end Kvs.Server
