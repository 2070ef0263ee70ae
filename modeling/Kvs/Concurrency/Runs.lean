/-
**Interleavings are runs of the table functions.**

`Operation.ops` are the table functions an operation makes. An operation that is executed whole
makes them one after another (`perform_runShared`); operations that are executed in turn make a run
of them, and every interleaving of threads is operations in turn. `interleave_run` puts this
together: whenever no thread holds the lock, the table and the notifications written so far are
those of the run of the table functions, in the order the lock was taken. What is known of every
run holds of every interleaving.
-/

import Kvs.Concurrency.Atomicity
import Kvs.Store.Buckets
import Kvs.Store.Notification

namespace Kvs.Server

open LockedCalls

/-! ### The table functions of an operation -/

/-- A key the table has a bucket for. -/
def keyed (key : CStr) : Option Key :=
  if alnum : startsAlnum key then some ⟨key, alnum⟩ else none

theorem keyed_eq {key : CStr} (alnum : startsAlnum key) : keyed key = some ⟨key, alnum⟩ :=
  dif_pos alnum

/-- The table functions an operation calls, in order. -/
def Operation.ops : Operation → List StoreOp
  | write pairs => pairs.filterMap fun pair => (keyed pair.1).map (.writePair · pair.2)
  | read keys => keys.filterMap fun key => (keyed key).map .readPair
  | delete keys => keys.filterMap fun key => (keyed key).map .deletePair
  | «show» | backup => []
  | subscribe key fd => ((keyed key).map (.writeSubscription · fd)).toList
  | unsubscribe key fd => ((keyed key).map (.deleteSubscription · fd)).toList
  | disconnect fd => [.disconnect fd]
  | disconnectAll => [.disconnectAll]

/-- A call of the table with its key, and the rest of the calls. -/
theorem runShared_cons {op : StoreOp} {outcome : Outcome} {shared : Shared}
    (called : op.exec shared.table = .ok outcome) (ops : List StoreOp) :
    runShared (op :: ops) shared =
      runShared ops ⟨outcome.table, shared.notified ++ outcome.notified⟩ := by
  rw [runShared, called]
  rfl

/-- The first access of a call that ends finds a bucket. -/
theorem alnum_of_ok {α : Type} {key : CStr} {call : Except Fault α} {value : α}
    (accesses : Accesses [key] call) (returned : call = .ok value) : startsAlnum key := by
  by_contra other
  have faulted := accesses.fault (List.mem_singleton_self key) other
  rw [returned] at faulted
  cases faulted

variable {shared after : Shared}

theorem writePairs_runShared {pairs : List (CStr × CStr)}
    (wrote : writePairs pairs shared = .ok after) :
    runShared (Operation.write pairs).ops shared = .ok after := by
  induction pairs generalizing shared with
  | nil => exact wrote
  | cons pair pairs ih =>
    obtain ⟨⟨code, table, sent⟩, written, later⟩ := bind_ok_inv wrote
    have alnum := alnum_of_ok (accesses_writePair shared.table pair.1 pair.2) written
    have called : (StoreOp.writePair ⟨pair.1, alnum⟩ pair.2).exec shared.table =
        .ok ⟨.code code, table, sent⟩ := by
      rw [StoreOp.exec, written]
      rfl
    have first : (Operation.write (pair :: pairs)).ops =
        .writePair ⟨pair.1, alnum⟩ pair.2 :: (Operation.write pairs).ops := by
      rw [Operation.ops, List.filterMap_cons, keyed_eq alnum]
      rfl
    rw [first, runShared_cons called]
    exact ih later

theorem readEntries_runShared {keys : List CStr} {text : List Byte}
    (answered : readEntries keys shared.table = .ok text) :
    runShared (Operation.read keys).ops shared = .ok shared := by
  induction keys generalizing text with
  | nil => rfl
  | cons key keys ih =>
    obtain ⟨entry, entered, later⟩ := bind_ok_inv answered
    obtain ⟨entries, rest, -⟩ := bind_ok_inv later
    obtain ⟨value, found, -⟩ := bind_ok_inv entered
    have alnum := alnum_of_ok (accesses_readPair shared.table key) found
    have called : (StoreOp.readPair ⟨key, alnum⟩).exec shared.table =
        .ok ⟨.text value, shared.table, []⟩ := by
      rw [StoreOp.exec, found]
      rfl
    have first : (Operation.read (key :: keys)).ops =
        .readPair ⟨key, alnum⟩ :: (Operation.read keys).ops := by
      rw [Operation.ops, List.filterMap_cons, keyed_eq alnum]
      rfl
    rw [first, runShared_cons called, List.append_nil]
    exact ih rest

theorem deleteKeys_runShared {keys : List CStr} {aux aux' : Bool} {text : List Byte}
    (deleted : deleteKeys keys aux shared = .ok (aux', text, after)) :
    runShared (Operation.delete keys).ops shared = .ok after := by
  induction keys generalizing shared aux text with
  | nil =>
    cases deleted
    rfl
  | cons key keys ih =>
    obtain ⟨⟨code, table, sent⟩, removed, later⟩ := bind_ok_inv deleted
    have alnum := alnum_of_ok (accesses_deletePair shared.table key) removed
    have called : (StoreOp.deletePair ⟨key, alnum⟩).exec shared.table =
        .ok ⟨.code code, table, sent⟩ := by
      rw [StoreOp.exec, removed]
      rfl
    have first : (Operation.delete (key :: keys)).ops =
        .deletePair ⟨key, alnum⟩ :: (Operation.delete keys).ops := by
      rw [Operation.ops, List.filterMap_cons, keyed_eq alnum]
      rfl
    rw [first, runShared_cons called]
    dsimp only at later
    split at later
    · obtain ⟨⟨_, _, _⟩, rest, same⟩ := bind_ok_inv later
      cases same
      exact ih rest
    · exact ih later

/-- **An operation executed whole** makes its table functions one after another. -/
theorem perform_runShared {forks : Bool} {operation : Operation} {reply : Reply}
    (performed : operation.perform forks shared = .ok (reply, after)) :
    runShared operation.ops shared = .ok after := by
  cases operation with
  | write pairs =>
    obtain ⟨⟨code, wrote⟩, written, same⟩ := map_ok_inv performed
    cases same
    obtain ⟨_, pairsWritten, same⟩ := bind_ok_inv written
    cases same
    exact writePairs_runShared pairsWritten
  | read keys =>
    obtain ⟨⟨code, text⟩, answered, same⟩ := map_ok_inv performed
    cases same
    obtain ⟨_, entries, _⟩ := bind_ok_inv answered
    exact readEntries_runShared entries
  | delete keys =>
    obtain ⟨⟨code, text, left⟩, deleted, same⟩ := map_ok_inv performed
    cases same
    obtain ⟨⟨_, _, _⟩, removed, same⟩ := bind_ok_inv deleted
    cases same
    exact deleteKeys_runShared removed
  | «show» =>
    cases performed
    rfl
  | backup =>
    cases performed
    rfl
  | subscribe key fd =>
    obtain ⟨⟨char, table⟩, subscribed, same⟩ := map_ok_inv performed
    cases same
    obtain ⟨⟨code, _⟩, written, same⟩ := bind_ok_inv subscribed
    cases same
    have alnum := alnum_of_ok (accesses_writeSubscription shared.table key fd) written
    have called : (StoreOp.writeSubscription ⟨key, alnum⟩ fd).exec shared.table =
        .ok ⟨.code code, table, []⟩ := by
      rw [StoreOp.exec, written]
      rfl
    rw [Operation.ops, keyed_eq alnum]
    refine (runShared_cons called []).trans ?_
    rw [List.append_nil]
    rfl
  | unsubscribe key fd =>
    obtain ⟨⟨char, table⟩, unsubscribed, same⟩ := map_ok_inv performed
    cases same
    obtain ⟨⟨code, _⟩, deleted, same⟩ := bind_ok_inv unsubscribed
    cases same
    have alnum := alnum_of_ok (accesses_deleteSubscription shared.table key fd) deleted
    have called : (StoreOp.deleteSubscription ⟨key, alnum⟩ fd).exec shared.table =
        .ok ⟨.code code, table, []⟩ := by
      rw [StoreOp.exec, deleted]
      rfl
    rw [Operation.ops, keyed_eq alnum]
    refine (runShared_cons called []).trans ?_
    rw [List.append_nil]
    rfl
  | disconnect fd =>
    cases performed
    show Except.ok (Shared.mk _ (shared.notified ++ [])) = _
    rw [List.append_nil]
  | disconnectAll =>
    cases performed
    show Except.ok (Shared.mk _ (shared.notified ++ [])) = _
    rw [List.append_nil]

/-! ### Operations in turn -/

theorem Serially.runShared {initial final : Shared}
    {outcomes : List (LockedCalls.Outcome Operation Reply)}
    (serially : Serially initial outcomes final) :
    runShared ((outcomes.map LockedCalls.Outcome.call).flatMap Operation.ops) initial =
      .ok final := by
  induction serially with
  | nil => rfl
  | snoc _ performed ih =>
    rw [List.map_append, List.flatMap_append, runShared_append, ih]
    show Server.runShared (Operation.ops _ ++ []) _ = _
    rw [List.append_nil]
    exact perform_runShared performed

/-- The table functions of a list make a run. -/
theorem run_of_runShared {start : HashTable} (wf : start.WellFormed) {ops : List StoreOp}
    {notified : List Notification} (ran : runShared ops ⟨start, notified⟩ = .ok after) :
    ∃ steps, Run start steps after.table ∧ steps.map Step.op = ops ∧
      after.notified = notified ++ steps.flatMap fun step => step.outcome.notified := by
  obtain ⟨steps, ht, run, same, -⟩ := run_exists wf ops
  have collected := run.runShared notified
  rw [same, ran] at collected
  cases collected
  exact ⟨steps, run, same, rfl⟩

/-- An interleaving from the empty table is a run of the table functions of its operations, in the
order they took the lock. -/
structure IsRun {τ : Type} (system : System Operation Shared Point Reply BackupChild τ)
    (steps : List Step) : Prop where
  run : Run createHashTable steps system.shared.table
  ops : steps.map Step.op = system.acquired.flatMap Operation.ops
  notified : system.shared.notified = steps.flatMap fun step => step.outcome.notified

/-- **Every interleaving is a run of the table functions**, whenever the lock is free. -/
theorem interleave_run {τ : Type} [DecidableEq τ] {events : List (Event Operation τ)}
    {system : System Operation Shared Point Reply BackupChild τ}
    (ran : interleave kvsMachine events (initially kvsInit) = some system)
    (free : system.holder = none) : ∃ steps, IsRun system steps := by
  obtain ⟨outcomes, final, kept⟩ := interleave_serial ran
  obtain ⟨same, acquired⟩ := kept.free free
  have collected := (serially_of_serial kept.serial).runShared
  rw [← same, ← acquired] at collected
  obtain ⟨steps, run, ops, notified⟩ := run_of_runShared createHashTable_wellFormed collected
  exact ⟨steps, run, ops, notified⟩

end Kvs.Server
