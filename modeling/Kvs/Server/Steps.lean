/-
**The store operations, step by step (`server/operations.c`).**

Every operation takes the table's lock, works through its pairs, keys or nodes one at a time, gives
the lock back and returns. A `Point` is where a call stands, with the local variables it still
needs; `instr` says what it does there, exit by exit. `kvsMachine` puts them together with the
children of `kvs_backup`, which walk the table `fork` has copied for them.

What a call writes to its own file is collected in its `text`, and the frames it sends in
`Shared.notified`: the writes made under the lock are taken to complete, none to block on a full
pipe or to fail. A child is taken to have its file open. The two nested loops over the table are a
list of the buckets left, the current one first, and the position of the next node in its chain.
-/

import Kvs.Lib.LockedCalls
import Kvs.Server.Operations

namespace Kvs.Server

open LockedCalls

/-! ### Operations -/

/-- A call of one of the store operations. -/
inductive Operation where
  | write (pairs : List (CStr × CStr))
  | read (keys : List CStr)
  | delete (keys : List CStr)
  | show
  | backup
  | subscribe (key : CStr) (fd : Fd)
  | unsubscribe (key : CStr) (fd : Fd)
  | disconnect (fd : Fd)
  | disconnectAll
deriving DecidableEq

/-- What an operation returns. -/
inductive ReturnValue where
  | code (value : Int)
  | char (value : Byte)
  | nothing
deriving DecidableEq

/-- What an operation returns, and what it has written to its file. -/
structure Reply where
  value : ReturnValue
  text : List Byte
deriving DecidableEq

/-- The operations that go through every node's slots. -/
inductive Sweep where
  | disconnect (fd : Fd)
  | disconnectAll
deriving DecidableEq

namespace Sweep

/-- The inner loop on one node. -/
def rewrite : Sweep → KeyNode → KeyNode
  | disconnect fd => KeyNode.dropSubscriber fd
  | disconnectAll => KeyNode.dropSubscribers

/-- What the operation returns. -/
def reply : Sweep → Reply
  | disconnect _ => ⟨.char '0'.toUInt8, []⟩
  | disconnectAll => ⟨.code 0, []⟩

end Sweep

/-! ### Points -/

/-- Where a call stands. -/
inductive Point where
  /-- Before `pthread_rwlock_wrlock`. -/
  | entering (operation : Operation)
  | writing (pairs : List (CStr × CStr))
  /-- Before the opening bracket is written. -/
  | readOpening (keys : List CStr)
  | reading (keys : List CStr) (text : List Byte)
  | deleting (keys : List CStr) (aux : Bool) (text : List Byte)
  | showing (buckets : List (Fin tableSize)) (position : ℕ) (text : List Byte)
  | forking
  | subscribing (key : CStr) (fd : Fd)
  | unsubscribing (key : CStr) (fd : Fd)
  | sweeping (sweep : Sweep) (buckets : List (Fin tableSize)) (position : ℕ)
  /-- Before `pthread_rwlock_unlock`. -/
  | unlocking (reply : Reply)
  | returning (reply : Reply)

/-- The buckets of a loop that has not begun. -/
def allBuckets : List (Fin tableSize) := List.finRange tableSize

/-- Where an operation stands once it has the lock. -/
def Operation.body : Operation → Point
  | write pairs => .writing pairs
  | read keys => .readOpening keys
  | delete keys => .deleting keys false []
  | «show» => .showing allBuckets 0 []
  | backup => .forking
  | subscribe key fd => .subscribing key fd
  | unsubscribe key fd => .unsubscribing key fd
  | disconnect fd => .sweeping (.disconnect fd) allBuckets 0
  | disconnectAll => .sweeping .disconnectAll allBuckets 0

/-! ### The backup child -/

/-- The child of `kvs_backup`, with the copy of the table it has. -/
structure BackupChild where
  table : HashTable
  buckets : List (Fin tableSize)
  position : ℕ
  /-- What it has written to the backup file. -/
  out : List Byte

namespace BackupChild

/-- The child as `fork` leaves it. -/
def copy (shared : Shared) : BackupChild := ⟨shared.table, allBuckets, 0, []⟩

/-- One step of its loops; none once it has exited. -/
def step (child : BackupChild) : Option BackupChild :=
  match child.buckets with
  | [] => none
  | bucket :: buckets =>
    match (child.table.table bucket)[child.position]? with
    | some node =>
      some { child with position := child.position + 1, out := child.out ++ backupLine node }
    | none => some { child with buckets, position := 0 }

/-- It has called `exit`. -/
def Exited (child : BackupChild) : Prop := child.buckets = []

end BackupChild

/-! ### Steps -/

/-- The table with one node of a chain rewritten. -/
def HashTable.setNode (table : HashTable) (bucket : Fin tableSize) (position : ℕ)
    (node : KeyNode) : HashTable :=
  table.setChain bucket ((table.table bucket).set position node)

/-- What a call does at a point. -/
def instr : Point → Instr Shared Fault Point Reply BackupChild
  | .entering operation => .lock operation.body
  | .writing [] => .unlock (.returning ⟨.code 0, []⟩)
  | .writing ((key, value) :: pairs) => .access fun shared =>
      (writePair shared.table key value).map fun (_, table, notified) =>
        (⟨table, shared.notified ++ notified⟩, .writing pairs)
  | .readOpening keys => .access fun shared => .ok (shared, .reading keys (ascii ['[']))
  | .reading [] text => .access fun shared =>
      .ok (shared, .unlocking ⟨.code 0, text ++ closingText⟩)
  | .reading (key :: keys) text => .access fun shared =>
      (readEntry shared.table key).map fun entry => (shared, .reading keys (text ++ entry))
  | .deleting [] aux text => .access fun shared =>
      .ok (shared, .unlocking ⟨.code 0, text ++ if aux then closingText else []⟩)
  | .deleting (key :: keys) aux text => .access fun shared =>
      (deletePair shared.table key).map fun (code, table, notified) =>
        (⟨table, shared.notified ++ notified⟩,
          if code ≠ 0 then
            .deleting keys true (text ++ ((if aux then [] else ascii ['[']) ++ missingEntry key))
          else .deleting keys aux text)
  | .showing [] _ text => .unlock (.returning ⟨.nothing, text⟩)
  | .showing (bucket :: buckets) position text => .access fun shared =>
      match (shared.table.table bucket)[position]? with
      | some node =>
        .ok (shared, .showing (bucket :: buckets) (position + 1) (text ++ showLine node))
      | none => .ok (shared, .showing buckets 0 text)
  | .forking => .fork BackupChild.copy fun forks =>
      .unlocking ⟨.code (if forks then 0 else -1), []⟩
  | .subscribing key fd => .access fun shared =>
      (writeSubscription shared.table key fd).map fun (code, table) =>
        ({ shared with table },
          .unlocking ⟨.char (if code ≠ 0 then '0'.toUInt8 else '1'.toUInt8), []⟩)
  | .unsubscribing key fd => .access fun shared =>
      (deleteSubscription shared.table key fd).map fun (code, table) =>
        ({ shared with table },
          .unlocking ⟨.char (if code ≠ 0 then '1'.toUInt8 else '0'.toUInt8), []⟩)
  | .sweeping sweep [] _ => .unlock (.returning sweep.reply)
  | .sweeping sweep (bucket :: buckets) position => .access fun shared =>
      match (shared.table.table bucket)[position]? with
      | some node =>
        .ok ({ shared with table := shared.table.setNode bucket position (sweep.rewrite node) },
          .sweeping sweep (bucket :: buckets) (position + 1))
      | none => .ok (shared, .sweeping sweep buckets 0)
  | .unlocking reply => .unlock (.returning reply)
  | .returning reply => .ret reply

/-- Where a point stands with respect to the lock. -/
def phase : Point → Phase
  | .entering _ => .before
  | .returning _ => .after
  | _ => .inside

/-- A call that returned, looked at. -/
theorem map_eq_ok {α β : Type} {call : Except Fault α} {next : α → β} {result : β}
    (returned : call.map next = .ok result) : ∃ value, call = .ok value ∧ next value = result := by
  cases call with
  | error fault => cases returned
  | ok value => exact ⟨value, rfl, Except.ok.inj returned⟩

/-- Within a section, at work on the table or about to unlock it. -/
def Point.Working : Point → Prop
  | .entering _ | .forking | .returning _ => False
  | _ => True

theorem working_of_map {α : Type} {call : Except Fault α} {next : α → Shared × Point}
    {shared : Shared} {point : Point} (done : call.map next = .ok (shared, point))
    (working : ∀ value, (next value).2.Working) : point.Working := by
  obtain ⟨value, _, same⟩ := map_eq_ok done
  have here := working value
  rwa [same] at here

/-- **An access goes on within the section.** -/
theorem access_working {point next : Point} {action : Shared → Except Fault (Shared × Point)}
    {shared shared' : Shared} (access : instr point = .access action)
    (done : action shared = .ok (shared', next)) : next.Working := by
  cases point with
  | entering operation => cases access
  | writing pairs =>
    cases pairs with
    | nil => cases access
    | cons pair pairs =>
      cases access
      exact working_of_map done fun _ => trivial
  | readOpening keys =>
    cases access
    cases done
    trivial
  | reading keys text =>
    cases keys with
    | nil =>
      cases access
      cases done
      trivial
    | cons key keys =>
      cases access
      exact working_of_map done fun _ => trivial
  | deleting keys aux text =>
    cases keys with
    | nil =>
      cases access
      cases done
      trivial
    | cons key keys =>
      cases access
      refine working_of_map done fun answer => ?_
      dsimp only
      split <;> trivial
  | showing buckets position text =>
    cases buckets with
    | nil => cases access
    | cons bucket buckets =>
      cases access
      dsimp only at done
      split at done <;> cases done <;> trivial
  | forking => cases access
  | subscribing key fd =>
    cases access
    exact working_of_map done fun _ => trivial
  | unsubscribing key fd =>
    cases access
    exact working_of_map done fun _ => trivial
  | sweeping sweep buckets position =>
    cases buckets with
    | nil => cases access
    | cons bucket buckets =>
      cases access
      dsimp only at done
      split at done <;> cases done <;> trivial
  | unlocking reply => cases access
  | returning reply => cases access

theorem phase_of_working {point : Point} (working : point.Working) : phase point = .inside := by
  cases point with
  | entering => exact working.elim
  | forking => exact working.elim
  | returning => exact working.elim
  | _ => rfl

theorem obeys_access {point : Point} {action : Shared → Except Fault (Shared × Point)}
    (access : instr point = .access action) (inside : phase point = .inside) :
    (instr point).Obeys phase (phase point) := by
  rw [access, inside]
  exact fun _ _ _ done => phase_of_working (access_working access done)

/-- **The lock discipline**: every exit of every operation unlocks once, and nothing touches the
table outside. -/
theorem instr_obeys (point : Point) : (instr point).Obeys phase (phase point) := by
  cases point with
  | entering operation => cases operation <;> rfl
  | writing pairs =>
    cases pairs with
    | nil => rfl
    | cons pair pairs => exact obeys_access rfl rfl
  | readOpening keys => exact obeys_access rfl rfl
  | reading keys text =>
    cases keys <;> exact obeys_access rfl rfl
  | deleting keys aux text =>
    cases keys <;> exact obeys_access rfl rfl
  | showing buckets position text =>
    cases buckets with
    | nil => rfl
    | cons bucket buckets => exact obeys_access rfl rfl
  | forking => exact fun _ => rfl
  | subscribing key fd => exact obeys_access rfl rfl
  | unsubscribing key fd => exact obeys_access rfl rfl
  | sweeping sweep buckets position =>
    cases buckets with
    | nil => rfl
    | cons bucket buckets => exact obeys_access rfl rfl
  | unlocking reply => rfl
  | returning reply => trivial

/-- The operations, the table they share and the backup children. -/
def kvsMachine : Machine Operation Shared Fault Point Reply BackupChild where
  start := .entering
  instr := instr
  childStep := BackupChild.step
  phase := phase
  start_before := fun _ => rfl
  obeys := instr_obeys

end Kvs.Server
