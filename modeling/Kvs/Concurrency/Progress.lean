/-
**Every operation returns.**

Whatever the threads and the backup children have done so far, and in whatever order they go on: as
long as no new operation is called they come to an end, and then every operation called has
returned and every child has exited. A thread that waits for the lock is not left waiting, and no
thread keeps the lock.

What is left of a section is a number of the keys, nodes and buckets before it (`sectionLeft`).
The one thing that ends a section otherwise is a key without a bucket.
-/

import Kvs.Concurrency.Atomicity
import Kvs.Lib.LockProgress
import Kvs.Store.Buckets
import Kvs.Store.Notification

namespace Kvs.Server

open LockedCalls

/-! ### Keys -/

/-- The keys an operation names. -/
def Operation.keys : Operation → List CStr
  | write pairs => pairs.map Prod.fst
  | read keys | delete keys => keys
  | subscribe key _ | unsubscribe key _ => [key]
  | _ => []

/-- The keys a call has still to look up. -/
def Point.keys : Point → List CStr
  | entering operation => operation.keys
  | writing pairs => pairs.map Prod.fst
  | readOpening keys | reading keys _ | deleting keys _ _ => keys
  | subscribing key _ | unsubscribing key _ => [key]
  | _ => []

/-- They all have buckets. -/
def Point.Keyed (point : Point) : Prop := ∀ key ∈ point.keys, startsAlnum key

theorem body_keys (operation : Operation) : operation.body.keys = operation.keys := by
  cases operation <;> rfl

theorem keyed_of_nil {point : Point} (none : point.keys = []) : point.Keyed := by
  rw [Point.Keyed, none]
  exact fun key member => absurd member List.not_mem_nil

/-! ### What is left of a section -/

/-- The nodes and the ends of buckets before a walk. -/
def walkLeft (table : HashTable) (buckets : List (Fin tableSize)) (position : ℕ) : ℕ :=
  (nodesFrom table buckets position).length + buckets.length

/-- A bound on the steps to the unlock. -/
def Point.left : Point → Shared → ℕ
  | writing pairs, _ => pairs.length + 1
  | readOpening keys, _ => keys.length + 3
  | reading keys _, _ | deleting keys _ _, _ => keys.length + 2
  | showing buckets position _, shared | sweeping _ buckets position, shared =>
    walkLeft shared.table buckets position + 1
  | forking, _ | subscribing _ _, _ | unsubscribing _ _, _ => 2
  | unlocking _, _ => 1
  | entering _, _ | returning _, _ => 0

/-- The steps of a child to come. -/
def BackupChild.left (child : BackupChild) : ℕ :=
  walkLeft child.table child.buckets child.position

section Walk

variable {table table' : HashTable} {bucket : Fin tableSize} {buckets : List (Fin tableSize)}
  {position : ℕ}

theorem walkLeft_some {node : KeyNode} (there : (table.table bucket)[position]? = some node) :
    walkLeft table (bucket :: buckets) (position + 1) <
      walkLeft table (bucket :: buckets) position := by
  simp only [walkLeft, nodesFrom_some there, List.length_cons]
  omega

theorem walkLeft_none (past : (table.table bucket)[position]? = none) :
    walkLeft table buckets 0 < walkLeft table (bucket :: buckets) position := by
  rw [walkLeft, walkLeft, nodesFrom_none past, List.length_cons]
  omega

/-- It is a matter of the chains' lengths. -/
theorem walkLeft_congr (same : ∀ bucket, (table'.table bucket).length = (table.table bucket).length)
    (buckets : List (Fin tableSize)) (position : ℕ) :
    walkLeft table' buckets position = walkLeft table buckets position := by
  rw [walkLeft, walkLeft]
  cases buckets with
  | nil => rfl
  | cons bucket buckets =>
    simp only [nodesFrom, List.length_append, List.length_drop, List.length_flatMap, same]

theorem length_setNode (table : HashTable) (bucket : Fin tableSize) (position : ℕ)
    (node : KeyNode) (other : Fin tableSize) :
    ((table.setNode bucket position node).table other).length = (table.table other).length := by
  show (Function.update table.table bucket ((table.table bucket).set position node) other).length =
    _
  by_cases same : other = bucket
  · subst same
    rw [Function.update_self, List.length_set]
  · rw [Function.update_of_ne same]

end Walk

/-! ### Every section ends -/

/-- What an access is to do: it succeeds, and goes on to a keyed point with less left. -/
def GoesOn (point : Point) (shared : Shared) (answer : Except Fault (Shared × Point)) : Prop :=
  ∃ shared' next, answer = .ok (shared', next) ∧ next.Keyed ∧ next.left shared' < point.left shared

theorem goesOn_map {α : Type} {point : Point} {shared : Shared} {keys : List CStr}
    {call : Except Fault α} {next : α → Shared × Point} (accesses : Accesses keys call)
    (alnum : ∀ key ∈ keys, startsAlnum key)
    (less : ∀ value,
      (next value).2.Keyed ∧ (next value).2.left (next value).1 < point.left shared) :
    GoesOn point shared (call.map next) := by
  obtain ⟨value, returned⟩ := accesses.ok alnum
  rw [returned]
  exact ⟨(next value).1, (next value).2, rfl, (less value).1, (less value).2⟩

/-- An access that only goes on. -/
theorem goesOn_ok {point next : Point} {shared shared' : Shared} (keyed : next.Keyed)
    (less : next.left shared' < point.left shared) : GoesOn point shared (.ok (shared', next)) :=
  ⟨shared', next, rfl, keyed, less⟩

/-- **Every access** of a keyed point goes on. -/
theorem access_goesOn {point : Point} {action : Shared → Except Fault (Shared × Point)}
    (access : instr point = .access action) (keyed : point.Keyed) (shared : Shared) :
    GoesOn point shared (action shared) := by
  cases point with
  | entering operation => cases access
  | writing pairs =>
    cases pairs with
    | nil => cases access
    | cons pair pairs =>
      cases access
      obtain ⟨first, rest⟩ := List.forall_mem_cons.mp keyed
      exact goesOn_map (accesses_writePair shared.table pair.1 pair.2)
        (List.forall_mem_singleton.mpr first) fun _ => ⟨rest, Nat.lt_succ_self _⟩
  | readOpening keys =>
    cases access
    exact goesOn_ok keyed (Nat.lt_succ_self _)
  | reading keys text =>
    cases keys with
    | nil =>
      cases access
      exact goesOn_ok (keyed_of_nil rfl) (show 1 < 2 by decide)
    | cons key keys =>
      cases access
      obtain ⟨first, rest⟩ := List.forall_mem_cons.mp keyed
      have entry : Accesses [key] (readEntry shared.table key) :=
        accesses_map (accesses_readPair shared.table key) fun _ => by
          split <;> exact accesses_pure _
      exact goesOn_map entry (List.forall_mem_singleton.mpr first)
        fun _ => ⟨rest, Nat.lt_succ_self _⟩
  | deleting keys aux text =>
    cases keys with
    | nil =>
      cases access
      exact goesOn_ok (keyed_of_nil rfl) (show 1 < 2 by decide)
    | cons key keys =>
      cases access
      obtain ⟨first, rest⟩ := List.forall_mem_cons.mp keyed
      refine goesOn_map (accesses_deletePair shared.table key)
        (List.forall_mem_singleton.mpr first) fun answer => ?_
      dsimp only
      split <;> exact ⟨rest, Nat.lt_succ_self _⟩
  | showing buckets position text =>
    cases buckets with
    | nil => cases access
    | cons bucket buckets =>
      cases access
      dsimp only
      split
      · rename_i node there
        exact goesOn_ok (keyed_of_nil rfl) (Nat.succ_lt_succ (walkLeft_some there))
      · rename_i past
        exact goesOn_ok (keyed_of_nil rfl) (Nat.succ_lt_succ (walkLeft_none past))
  | forking => cases access
  | subscribing key fd =>
    cases access
    exact goesOn_map (accesses_writeSubscription shared.table key fd) keyed fun _ =>
      ⟨keyed_of_nil rfl, show 1 < 2 by decide⟩
  | unsubscribing key fd =>
    cases access
    exact goesOn_map (accesses_deleteSubscription shared.table key fd) keyed fun _ =>
      ⟨keyed_of_nil rfl, show 1 < 2 by decide⟩
  | sweeping sweep buckets position =>
    cases buckets with
    | nil => cases access
    | cons bucket buckets =>
      cases access
      dsimp only
      split
      · rename_i node there
        refine goesOn_ok (keyed_of_nil rfl) (Nat.succ_lt_succ ?_)
        dsimp only
        rw [walkLeft_congr (length_setNode shared.table bucket position (sweep.rewrite node))]
        exact walkLeft_some there
      · rename_i past
        exact goesOn_ok (keyed_of_nil rfl) (Nat.succ_lt_succ (walkLeft_none past))
  | unlocking reply => cases access
  | returning reply => cases access

theorem unlock_left {point next : Point} (unlock : instr point = .unlock next) :
    next.Keyed ∧ ∀ shared, 0 < point.left shared := by
  cases point with
  | writing pairs =>
    cases pairs with
    | nil =>
      cases unlock
      exact ⟨keyed_of_nil rfl, fun _ => Nat.succ_pos _⟩
    | cons pair pairs => cases unlock
  | showing buckets position text =>
    cases buckets with
    | nil =>
      cases unlock
      exact ⟨keyed_of_nil rfl, fun _ => Nat.succ_pos _⟩
    | cons bucket buckets => cases unlock
  | sweeping sweep buckets position =>
    cases buckets with
    | nil =>
      cases unlock
      exact ⟨keyed_of_nil rfl, fun _ => Nat.succ_pos _⟩
    | cons bucket buckets => cases unlock
  | unlocking reply =>
    cases unlock
    exact ⟨keyed_of_nil rfl, fun _ => Nat.succ_pos _⟩
  | reading keys text => cases keys <;> cases unlock
  | deleting keys aux text => cases keys <;> cases unlock
  | _ => cases unlock

theorem lock_keyed {point next : Point} (lock : instr point = .lock next) (keyed : point.Keyed) :
    next.Keyed := by
  cases point with
  | entering operation =>
    cases lock
    rw [Point.Keyed, body_keys]
    exact keyed
  | writing pairs => cases pairs <;> cases lock
  | reading keys text => cases keys <;> cases lock
  | deleting keys aux text => cases keys <;> cases lock
  | showing buckets position text => cases buckets <;> cases lock
  | sweeping sweep buckets position => cases buckets <;> cases lock
  | _ => cases lock

theorem childStep_left {child next : BackupChild} (stepped : child.step = some next) :
    next.left < child.left := by
  obtain ⟨table, buckets, position, out⟩ := child
  cases buckets with
  | nil => cases stepped
  | cons bucket buckets =>
    rw [BackupChild.step] at stepped
    dsimp only at stepped
    split at stepped
    · rename_i node there
      cases stepped
      exact walkLeft_some there
    · rename_i past
      cases stepped
      exact walkLeft_none past

/-- **Every section ends**, whatever the table. -/
theorem kvsMachine_bounded : Bounded kvsMachine Point.Keyed Point.left BackupChild.left where
  lock instruction keyed := lock_keyed instruction keyed
  access instruction keyed shared := access_goesOn instruction keyed shared
  fork instruction _ forks := by
    cases fork_forking instruction
    cases instruction
    exact ⟨keyed_of_nil rfl, fun _ => Nat.lt_succ_self _⟩
  unlock instruction _ := unlock_left instruction
  child stepped := childStep_left stepped

/-! ### Every operation returns -/

/-- A system of threads and backup children. -/
abbrev KvsSystem (τ : Type) := System Operation Shared Point Reply BackupChild τ

/-- No thread is within an operation, every one called has returned, and every child has exited. -/
structure AtRest {τ : Type} (events : List (Event Operation τ)) (system : KvsSystem τ) : Prop where
  idle : ∀ thread, system.threads thread = none
  returned : system.returned.length = events.countP Event.isCall
  exited : ∀ entry ∈ system.children, entry.2.Exited

theorem exited_of_stuck {child : BackupChild} (stuck : child.step = none) : child.Exited := by
  obtain ⟨table, buckets, position, out⟩ := child
  cases buckets with
  | nil => rfl
  | cons bucket buckets =>
    rw [BackupChild.step] at stuck
    dsimp only at stuck
    split at stuck <;> cases stuck

/-- **Every operation returns.** From any state the threads can have come to by operations whose
keys have buckets, no schedule of their steps goes on for ever without a new call, and one that can
go no further has left everything at rest. -/
theorem operations_return {τ : Type} [DecidableEq τ] [Fintype τ] {initial : Shared}
    {events : List (Event Operation τ)} {system : KvsSystem τ}
    (ran : interleave kvsMachine events (initially initial) = some system)
    (alnum : ∀ thread operation, Event.call thread operation ∈ events →
      ∀ key ∈ operation.keys, startsAlnum key) :
    (¬ ∃ run : ℕ → KvsSystem τ, run 0 = system ∧
      ∀ step, Going kvsMachine (run (step + 1)) (run step)) ∧
    ∀ (steps : List (Event Operation τ)) (final : KvsSystem τ), (∀ event ∈ steps, event.IsStep) →
      interleave kvsMachine steps system = some final → Settled kvsMachine final →
      AtRest events final := by
  have sound := interleave_sound kvsMachine_bounded initially_sound alnum ran
  refine ⟨?_, fun steps final isSteps went settled => ?_⟩
  · rintro ⟨run, start, goes⟩
    have none := acc_iff_isEmpty_descending_chain.mp (sound_acc kvsMachine_bounded sound)
    exact none.false ⟨run, start, goes⟩
  · have noCall : ∀ thread operation, Event.call thread operation ∈ steps →
        (kvsMachine.start operation).Keyed := fun _ _ member => (isSteps _ member).elim
    have soundFinal := interleave_sound kvsMachine_bounded sound noCall went
    have whole : interleave kvsMachine (events ++ steps) (initially initial) = some final := by
      rw [interleave_append, ran]
      exact went
    have calls : steps.countP Event.isCall = 0 := List.countP_eq_zero.mpr fun event member => by
      cases event with
      | call thread operation => exact (isSteps _ member).elim
      | advance => exact Bool.false_ne_true
      | child => exact Bool.false_ne_true
    refine ⟨settled_idle kvsMachine_bounded soundFinal settled, ?_, fun entry member =>
      exited_of_stuck (settled_children settled entry member)⟩
    rw [settled_returned kvsMachine_bounded soundFinal settled whole, List.countP_append, calls,
      Nat.add_zero]

/-- A writer that has the lock and a reader that waits for it. -/
def writerHolds : List (Event Operation Bool) :=
  [.call false (.write [(keyA.1, valueAnna)]), .call true (.read [keyA.1]), .advance false true]

/-- Both return, however they go on. -/
theorem operations_return_writerHolds : ∃ system : KvsSystem Bool,
    interleave kvsMachine writerHolds (initially kvsInit) = some system ∧
      ∀ (steps : List (Event Operation Bool)) (final : KvsSystem Bool),
        (∀ event ∈ steps, event.IsStep) → interleave kvsMachine steps system = some final →
        Settled kvsMachine final → final.returned.length = 2 := by
  obtain ⟨system, ran⟩ := Option.isSome_iff_exists.mp
    (show (interleave kvsMachine writerHolds (initially kvsInit)).isSome by decide)
  have alnum : ∀ thread operation, Event.call thread operation ∈ writerHolds →
      ∀ key ∈ operation.keys, startsAlnum key := by
    intro thread operation member
    simp only [writerHolds, List.mem_cons, List.not_mem_nil, or_false, reduceCtorEq,
      Event.call.injEq] at member
    rcases member with ⟨-, rfl⟩ | ⟨-, rfl⟩ <;> decide
  exact ⟨system, ran, fun steps final isSteps went settled =>
    ((operations_return ran alnum).2 steps final isSteps went settled).returned⟩

end Kvs.Server
