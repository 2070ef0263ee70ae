/-
**Operations are atomic.**

However the steps of any number of threads and of the backup children are interleaved, the
operations come to what they come to when each is executed whole, in the order in which they took
the lock: `operations_atomic`.

The whole operations are the functions of the store (`Operation.perform`). `finish` is what is left
to do at a point, and `finish_does` that every instruction does its part of it, so the steps of an
operation alone amount to the function. A backup child writes what `kvs_backup` writes from the
table at its turn (`child_out`), however long it takes.
-/

import Kvs.Server.Steps

namespace Kvs.Server

open LockedCalls

/-! ### Whole operations -/

/-- An operation executed whole; `forks` says whether `fork` succeeds. -/
def Operation.perform (forks : Bool) : Operation → Shared → Except Fault (Reply × Shared)
  | write pairs, shared =>
    (kvsWrite pairs shared).map fun (code, shared) => (⟨.code code, []⟩, shared)
  | read keys, shared => (kvsRead keys shared).map fun (code, text) => (⟨.code code, text⟩, shared)
  | delete keys, shared =>
    (kvsDelete keys shared).map fun (code, text, shared) => (⟨.code code, text⟩, shared)
  | «show», shared => .ok (⟨.nothing, kvsShow shared.table⟩, shared)
  | backup, shared => .ok (⟨.code (kvsBackup forks shared.table).1, []⟩, shared)
  | subscribe key fd, shared =>
    (Server.subscribe key fd shared.table).map fun (char, table) =>
      (⟨.char char, []⟩, { shared with table })
  | unsubscribe key fd, shared =>
    (Server.unsubscribe key fd shared.table).map fun (char, table) =>
      (⟨.char char, []⟩, { shared with table })
  | disconnect fd, shared =>
    .ok (⟨.char (Server.disconnect fd shared.table).1, []⟩,
      { shared with table := (Server.disconnect fd shared.table).2 })
  | disconnectAll, shared =>
    .ok (⟨.code (Server.disconnectAll shared.table).1, []⟩,
      { shared with table := (Server.disconnectAll shared.table).2 })

/-- Operations executed whole, one after another. -/
inductive Serially (initial : Shared) : List (Outcome Operation Reply) → Shared → Prop where
  | nil : Serially initial [] initial
  | snoc {outcomes : List (Outcome Operation Reply)} {middle final : Shared} {operation : Operation}
      {reply : Reply} {forks : Bool} (earlier : Serially initial outcomes middle)
      (performed : operation.perform forks middle = .ok (reply, final)) :
      Serially initial (outcomes ++ [⟨operation, reply⟩]) final

/-! ### Walks over the table -/

/-- The nodes a walk still has before it. -/
def nodesFrom (table : HashTable) : List (Fin tableSize) → ℕ → List KeyNode
  | [], _ => []
  | bucket :: buckets, position =>
    (table.table bucket).drop position ++ buckets.flatMap table.table

section Walk

variable {table : HashTable} {bucket : Fin tableSize} {buckets : List (Fin tableSize)}
  {position : ℕ} {node : KeyNode}

theorem nodesFrom_zero (table : HashTable) (buckets : List (Fin tableSize)) :
    nodesFrom table buckets 0 = buckets.flatMap table.table := by
  cases buckets <;> rfl

theorem nodesFrom_some (there : (table.table bucket)[position]? = some node) :
    nodesFrom table (bucket :: buckets) position =
      node :: nodesFrom table (bucket :: buckets) (position + 1) := by
  obtain ⟨inside, same⟩ := List.getElem?_eq_some_iff.mp there
  rw [nodesFrom, List.drop_eq_getElem_cons inside, same]
  rfl

theorem nodesFrom_none (past : (table.table bucket)[position]? = none) :
    nodesFrom table (bucket :: buckets) position = nodesFrom table buckets 0 := by
  rw [nodesFrom, List.drop_of_length_le (List.getElem?_eq_none_iff.mp past), nodesFrom_zero]
  rfl

/-- The table once the rest of a sweep is done. -/
def sweepFrom (rewrite : KeyNode → KeyNode) :
    HashTable → List (Fin tableSize) → ℕ → HashTable
  | table, [], _ => table
  | table, bucket :: buckets, position =>
    let chain := table.table bucket
    sweepFrom rewrite
      (table.setChain bucket (chain.take position ++ (chain.drop position).map rewrite)) buckets 0

theorem setChain_setChain (table : HashTable) (bucket : Fin tableSize)
    (first second : List KeyNode) :
    (table.setChain bucket first).setChain bucket second = table.setChain bucket second := by
  simp only [HashTable.setChain, Function.update_idem]

theorem setChain_self (table : HashTable) (bucket : Fin tableSize) :
    table.setChain bucket (table.table bucket) = table := by
  simp only [HashTable.setChain, Function.update_eq_self]

variable {rewrite : KeyNode → KeyNode}

theorem sweepFrom_some (there : (table.table bucket)[position]? = some node) :
    sweepFrom rewrite table (bucket :: buckets) position =
      sweepFrom rewrite (table.setNode bucket position (rewrite node)) (bucket :: buckets)
        (position + 1) := by
  obtain ⟨inside, same⟩ := List.getElem?_eq_some_iff.mp there
  have chain : (table.setNode bucket position (rewrite node)).table bucket =
      (table.table bucket).set position (rewrite node) := Function.update_self ..
  have taken : ((table.table bucket).set position (rewrite node)).take (position + 1) =
      (table.table bucket).take position ++ [rewrite node] := by
    rw [List.take_add_one, List.getElem?_set_self inside, List.take_set_of_le le_rfl]
    rfl
  rw [sweepFrom, sweepFrom, chain, taken, List.drop_set_of_lt (Nat.lt_succ_self position),
    HashTable.setNode, setChain_setChain, List.drop_eq_getElem_cons inside, same, List.map_cons,
    List.append_assoc, List.singleton_append]

theorem sweepFrom_none (past : (table.table bucket)[position]? = none) :
    sweepFrom rewrite table (bucket :: buckets) position = sweepFrom rewrite table buckets 0 := by
  have length := List.getElem?_eq_none_iff.mp past
  rw [sweepFrom, List.take_of_length_le length, List.drop_of_length_le length, List.map_nil,
    List.append_nil, setChain_self]

theorem sweepFrom_table (once : buckets.Nodup) (other : Fin tableSize) :
    (sweepFrom rewrite table buckets 0).table other =
      if other ∈ buckets then (table.table other).map rewrite else table.table other := by
  induction buckets generalizing table with
  | nil => rfl
  | cons bucket buckets ih =>
    obtain ⟨fresh, once⟩ := List.nodup_cons.mp once
    rw [sweepFrom, ih once]
    by_cases same : other = bucket
    · subst same
      rw [if_neg fresh, if_pos List.mem_cons_self]
      exact Function.update_self ..
    · have elsewhere : ∀ chain, (table.setChain bucket chain).table other = table.table other :=
        fun chain => Function.update_of_ne same ..
      simp only [elsewhere, List.mem_cons, same, false_or]

/-- A whole sweep rewrites every node. -/
theorem sweepFrom_all (table : HashTable) :
    sweepFrom rewrite table allBuckets 0 = table.mapNodes rewrite := by
  have chains : (sweepFrom rewrite table allBuckets 0).table = (table.mapNodes rewrite).table := by
    funext bucket
    have once : allBuckets.Nodup := List.nodup_finRange tableSize
    have member : bucket ∈ allBuckets := List.mem_finRange bucket
    rw [sweepFrom_table once, if_pos member]
    rfl
  exact congrArg HashTable.mk chains

end Walk

/-! ### What is left to do -/

/-- What an operation has left to do at a point. -/
def finish (forks : Bool) : Point → Shared → Except Fault (Reply × Shared)
  | .entering operation, shared => operation.perform forks shared
  | .writing pairs, shared =>
    (kvsWrite pairs shared).map fun (code, shared) => (⟨.code code, []⟩, shared)
  | .readOpening keys, shared =>
    (kvsRead keys shared).map fun (code, text) => (⟨.code code, text⟩, shared)
  | .reading keys text, shared =>
    (readEntries keys shared.table).map fun entries =>
      (⟨.code 0, text ++ entries ++ closingText⟩, shared)
  | .deleting keys aux text, shared =>
    (deleteKeys keys aux shared).map fun (aux, out, shared) =>
      (⟨.code 0, text ++ out ++ if aux then closingText else []⟩, shared)
  | .showing buckets position text, shared =>
    .ok (⟨.nothing, text ++ (nodesFrom shared.table buckets position).flatMap showLine⟩, shared)
  | .forking, shared => .ok (⟨.code (kvsBackup forks shared.table).1, []⟩, shared)
  | .subscribing key fd, shared =>
    (subscribe key fd shared.table).map fun (char, table) =>
      (⟨.char char, []⟩, { shared with table })
  | .unsubscribing key fd, shared =>
    (unsubscribe key fd shared.table).map fun (char, table) =>
      (⟨.char char, []⟩, { shared with table })
  | .sweeping sweep buckets position, shared =>
    .ok (sweep.reply,
      { shared with table := sweepFrom sweep.rewrite shared.table buckets position })
  | .unlocking reply, shared => .ok (reply, shared)
  | .returning reply, shared => .ok (reply, shared)

/-- With the lock taken, the whole operation is left to do. -/
theorem finish_body (forks : Bool) (operation : Operation) (shared : Shared) :
    operation.perform forks shared = finish forks operation.body shared := by
  cases operation with
  | write pairs => rfl
  | read keys => rfl
  | delete keys =>
    show (kvsDelete keys shared).map _ = (deleteKeys keys false shared).map _
    rw [kvsDelete]
    cases deleteKeys keys false shared <;> rfl
  | «show» =>
    show _ = Except.ok (_, shared)
    rw [nodesFrom_zero]
    rfl
  | backup => rfl
  | subscribe key fd => rfl
  | unsubscribe key fd => rfl
  | disconnect fd =>
    show _ = Except.ok (_, _)
    rw [sweepFrom_all]
    rfl
  | disconnectAll =>
    show _ = Except.ok (_, _)
    rw [sweepFrom_all]
    rfl

/-- One pair less to write. -/
theorem finish_writing (forks : Bool) {key value : CStr} {pairs : List (CStr × CStr)}
    {shared : Shared} {code : Int} {table : HashTable} {notified : List Notification}
    (written : writePair shared.table key value = .ok (code, table, notified)) :
    finish forks (.writing ((key, value) :: pairs)) shared =
      finish forks (.writing pairs) ⟨table, shared.notified ++ notified⟩ := by
  rw [finish, kvsWrite, writePairs, written]
  rfl

/-- One key less to read. -/
theorem finish_reading (forks : Bool) {key : CStr} {keys : List CStr} {text entry : List Byte}
    {shared : Shared} (entered : readEntry shared.table key = .ok entry) :
    finish forks (.reading (key :: keys) text) shared =
      finish forks (.reading keys (text ++ entry)) shared := by
  rw [finish, finish, readEntries, entered]
  cases readEntries keys shared.table with
  | error fault => rfl
  | ok entries =>
    show Except.ok (_, shared) = Except.ok (_, shared)
    simp only [List.append_assoc]

/-- One key less to delete. -/
theorem finish_deleting (forks : Bool) {key : CStr} {keys : List CStr} {aux : Bool}
    {text : List Byte} {shared : Shared} {code : Int} {table : HashTable}
    {notified : List Notification}
    (deleted : deletePair shared.table key = .ok (code, table, notified)) :
    finish forks (.deleting (key :: keys) aux text) shared =
      finish forks
        (if code ≠ 0 then
          .deleting keys true (text ++ ((if aux then [] else ascii ['[']) ++ missingEntry key))
        else .deleting keys aux text) ⟨table, shared.notified ++ notified⟩ := by
  rw [finish, deleteKeys, deleted]
  by_cases missing : code ≠ 0
  · rw [if_pos missing, finish]
    show Except.map _ (if code ≠ 0 then _ else _) = _
    rw [if_pos missing]
    cases deleteKeys keys true ⟨table, shared.notified ++ notified⟩ with
    | error fault => rfl
    | ok outcome =>
      show Except.ok (_, _) = Except.ok (_, _)
      simp only [List.append_assoc]
  · rw [if_neg missing, finish]
    show Except.map _ (if code ≠ 0 then _ else _) = _
    rw [if_neg missing]

/-- **Every instruction does its part** of what is left to do. -/
theorem finish_does : BigStep kvsMachine finish := by
  intro point
  cases point with
  | entering operation => exact fun forks shared => finish_body forks operation shared
  | writing pairs =>
    cases pairs with
    | nil => exact fun _ _ => rfl
    | cons pair pairs =>
      intro forks shared shared' next done
      obtain ⟨⟨code, table, notified⟩, written, same⟩ := map_eq_ok done
      cases same
      exact finish_writing forks written
  | readOpening keys =>
    intro forks shared shared' next done
    cases done
    show (kvsRead keys shared).map _ = (readEntries keys shared.table).map _
    rw [kvsRead]
    cases readEntries keys shared.table <;> rfl
  | reading keys text =>
    cases keys with
    | nil =>
      intro forks shared shared' next done
      cases done
      show Except.ok (_, shared) = Except.ok (_, shared)
      rw [List.append_nil]
    | cons key keys =>
      intro forks shared shared' next done
      obtain ⟨entry, entered, same⟩ := map_eq_ok done
      cases same
      exact finish_reading forks entered
  | deleting keys aux text =>
    cases keys with
    | nil =>
      intro forks shared shared' next done
      cases done
      show Except.ok (_, shared) = Except.ok (_, shared)
      rw [List.append_nil]
    | cons key keys =>
      intro forks shared shared' next done
      obtain ⟨⟨code, table, notified⟩, deleted, same⟩ := map_eq_ok done
      cases same
      exact finish_deleting forks deleted
  | showing buckets position text =>
    cases buckets with
    | nil =>
      intro forks shared
      show Except.ok (_, shared) = Except.ok (_, shared)
      rw [nodesFrom, List.flatMap_nil, List.append_nil]
    | cons bucket buckets =>
      intro forks shared shared' next done
      dsimp only at done
      split at done
      · rename_i node there
        cases done
        show Except.ok (_, shared) = Except.ok (_, shared)
        rw [nodesFrom_some there, List.flatMap_cons, List.append_assoc]
      · rename_i past
        cases done
        show Except.ok (_, shared) = Except.ok (_, shared)
        rw [nodesFrom_none past]
  | forking => exact fun forks _ _ => by cases forks <;> rfl
  | subscribing key fd =>
    intro forks shared shared' next done
    obtain ⟨⟨code, table⟩, written, same⟩ := map_eq_ok done
    cases same
    show (subscribe key fd shared.table).map _ = _
    rw [subscribe, written]
    rfl
  | unsubscribing key fd =>
    intro forks shared shared' next done
    obtain ⟨⟨code, table⟩, deleted, same⟩ := map_eq_ok done
    cases same
    show (unsubscribe key fd shared.table).map _ = _
    rw [unsubscribe, deleted]
    rfl
  | sweeping sweep buckets position =>
    cases buckets with
    | nil => exact fun _ _ => rfl
    | cons bucket buckets =>
      intro forks shared shared' next done
      dsimp only at done
      split at done
      · rename_i node there
        cases done
        show Except.ok (_, _) = Except.ok (_, _)
        rw [sweepFrom_some there]
      · rename_i past
        cases done
        show Except.ok (_, _) = Except.ok (_, _)
        rw [sweepFrom_none past]
  | unlocking reply => exact fun _ _ => rfl
  | returning reply => exact fun _ _ => rfl

/-- Calls that run alone are operations executed whole. -/
theorem serially_of_serial {initial final : Shared} {outcomes : List (Outcome Operation Reply)}
    (serial : Serial kvsMachine initial outcomes final) : Serially initial outcomes final := by
  induction serial with
  | nil => exact .nil
  | snoc _ ran ends ih =>
    obtain ⟨forks, performed⟩ := finish_does.whole ran ends
    exact ih.snoc performed

/-! ### Backup children -/

/-- What a child has written, and what it has still to write. -/
theorem childStep_kept {child next : BackupChild} (stepped : child.step = some next) :
    next.table = child.table ∧
      next.out ++ (nodesFrom next.table next.buckets next.position).flatMap backupLine =
        child.out ++ (nodesFrom child.table child.buckets child.position).flatMap backupLine := by
  obtain ⟨table, buckets, position, out⟩ := child
  cases buckets with
  | nil => cases stepped
  | cons bucket buckets =>
    rw [BackupChild.step] at stepped
    dsimp only at stepped
    split at stepped
    · rename_i node there
      cases stepped
      refine ⟨rfl, ?_⟩
      dsimp only
      rw [nodesFrom_some there, List.flatMap_cons, List.append_assoc]
    · rename_i past
      cases stepped
      refine ⟨rfl, ?_⟩
      dsimp only
      rw [nodesFrom_none past]

theorem child_kept {shared : Shared} {child : BackupChild}
    (gone : ChildRun kvsMachine (BackupChild.copy shared) child) :
    child.table = shared.table ∧
      child.out ++ (nodesFrom child.table child.buckets child.position).flatMap backupLine =
        backupContent shared.table := by
  induction gone with
  | refl => exact ⟨rfl, by rw [BackupChild.copy, nodesFrom_zero]; rfl⟩
  | tail _ stepped ih =>
    obtain ⟨sameTable, same⟩ := childStep_kept stepped
    exact ⟨sameTable.trans ih.1, same.trans ih.2⟩

/-- **A backup child** that has exited has written the table it was forked with. -/
theorem child_out {shared : Shared} {child : BackupChild}
    (gone : ChildRun kvsMachine (BackupChild.copy shared) child) (exited : child.Exited) :
    child.out = backupContent shared.table := by
  have written := (child_kept gone).2
  rwa [show child.buckets = [] from exited, nodesFrom, List.flatMap_nil, List.append_nil] at written

theorem fork_forking {point : Point} {copy : Shared → BackupChild} {next : Bool → Point}
    (fork : instr point = .fork copy next) : point = .forking := by
  cases point with
  | forking => rfl
  | writing pairs => cases pairs <;> cases fork
  | reading keys text => cases keys <;> cases fork
  | deleting keys aux text => cases keys <;> cases fork
  | showing buckets position text => cases buckets <;> cases fork
  | sweeping sweep buckets position => cases buckets <;> cases fork
  | _ => cases fork

/-- What holds of an operation alone, as to children: only `kvs_backup` comes to the fork, and it
does so with the table it found. -/
structure ForksAtTurn (operation : Operation) (initial : Shared)
    (config : Config Shared Point BackupChild) : Prop where
  entering : ∀ other, config.point = .entering other →
    other = operation ∧ config.shared = initial
  forking : config.point = .forking → operation = .backup ∧ config.shared = initial
  spawned : ∀ child ∈ config.spawned, operation = .backup ∧ child = BackupChild.copy initial

theorem forksAtTurn_step {operation : Operation} {initial : Shared}
    {config next : Config Shared Point BackupChild} (kept : ForksAtTurn operation initial config)
    (alone : Alone kvsMachine config next) : ForksAtTurn operation initial next := by
  obtain ⟨point, shared, spawned⟩ := config
  cases alone with
  | lock instruction =>
    cases point with
    | entering other =>
      obtain ⟨rfl, sameShared⟩ := kept.entering other rfl
      cases instruction
      refine ⟨fun another there => ?_, fun there => ⟨?_, sameShared⟩, kept.spawned⟩
      · cases other <;> cases there
      · cases other with
        | backup => rfl
        | _ => cases there
    | _ => exact nomatch (phase_of_lock (m := kvsMachine) instruction).1
  | access instruction done =>
    have working := access_working instruction done
    refine ⟨fun another there => ?_, fun there => ?_, kept.spawned⟩
    · cases there
      exact working.elim
    · cases there
      exact working.elim
  | fork instruction forks =>
    cases fork_forking instruction
    obtain ⟨isBackup, same⟩ := kept.forking rfl
    cases instruction
    refine ⟨nofun, nofun, fun child member => ?_⟩
    cases forks with
    | false => exact kept.spawned child member
    | true =>
      rcases List.mem_append.mp member with old | new
      · exact kept.spawned child old
      · exact ⟨isBackup, by rw [List.mem_singleton.mp new]; exact congrArg _ same⟩
  | unlock instruction =>
    have after := (phase_of_unlock (m := kvsMachine) instruction).2
    refine ⟨fun another there => ?_, fun there => ?_, kept.spawned⟩
    · cases there
      cases after
    · cases there
      cases after

theorem forksAtTurn_run {operation : Operation} {initial : Shared}
    {config : Config Shared Point BackupChild}
    (ran : AloneRun kvsMachine ⟨.entering operation, initial, []⟩ config) :
    ForksAtTurn operation initial config := by
  induction ran with
  | refl =>
    refine ⟨fun other there => ?_, nofun, nofun⟩
    cases there
    exact ⟨rfl, rfl⟩
  | tail _ alone ih => exact forksAtTurn_step ih alone

/-! ### Interleavings -/

/-- The operation of the thread that holds the lock. -/
def heldOperation {τ : Type} (system : System Operation Shared Point Reply BackupChild τ) :
    Option Operation :=
  system.holder.bind fun thread => (system.threads thread).map Running.call

/-- What has come of the operations is what comes of them when each is executed whole, in the order
in which they took the lock. -/
def InTurn {τ : Type} (initial : Shared)
    (system : System Operation Shared Point Reply BackupChild τ) : Prop :=
  ∃ outcomes final, Serially initial outcomes final ∧
    -- the order is that of the lock; the operation that holds it comes last
    system.acquired = outcomes.map Outcome.call ++ (heldOperation system).toList ∧
    -- the table and the notifications
    (system.holder = none → system.shared = final) ∧
    -- what is returned, and written to the output files
    (∀ entry ∈ system.returned, ∃ outcome, outcomes[entry.1]? = some outcome ∧
      outcome.result = entry.2) ∧
    -- the backup files
    ∀ entry ∈ system.children, entry.2.Exited → ∃ before,
      Serially initial (outcomes.take entry.1) before ∧
      system.acquired[entry.1]? = some .backup ∧
      (kvsBackup true before.table).2 = some entry.2.out

/-- **Operations are atomic** in every interleaving of any number of threads and backup children. -/
theorem operations_atomic {τ : Type} [DecidableEq τ] {initial : Shared}
    {events : List (Event Operation τ)}
    {system : System Operation Shared Point Reply BackupChild τ}
    (ran : interleave kvsMachine events (initially initial) = some system) :
    InTurn initial system := by
  obtain ⟨outcomes, final, kept⟩ := interleave_serial ran
  refine ⟨outcomes, final, serially_of_serial kept.serial, ?_, fun free => (kept.free free).1,
    kept.returned, ?_⟩
  · cases holder : system.holder with
    | none =>
      rw [(kept.free holder).2, heldOperation, holder]
      exact (List.append_nil _).symm
    | some thread =>
      obtain ⟨running, _, there, _, _, acquired, _⟩ := kept.held thread holder
      rw [acquired, heldOperation, holder, Option.bind_some, there]
      rfl
  · intro entry member exited
    obtain ⟨before, operation, config, first, _, serial, acquired, alone, made, gone⟩ :=
      kept.children entry member
    obtain ⟨rfl, rfl⟩ := (forksAtTurn_run alone).spawned first made
    refine ⟨before, serially_of_serial serial, acquired, ?_⟩
    rw [child_out gone exited]
    rfl

/-- A writer and a reader whose steps alternate as far as the lock lets them. -/
theorem operations_atomic_writer_reader :
    ∃ system, interleave kvsMachine
        [.call 0 (.write [(⟨ascii ['a'], by decide⟩, ⟨ascii ['x'], by decide⟩)]),
          .call 1 (.read [⟨ascii ['a'], by decide⟩]), .advance 0 true, .advance 0 true,
          .advance 0 true, .advance 1 true, .advance 0 true, .advance 1 true, .advance 1 true,
          .advance 1 true, .advance 1 true, .advance 1 true]
        (initially kvsInit : System Operation Shared Point Reply BackupChild ℕ) = some system ∧
          InTurn kvsInit system := by
  refine (Option.isSome_iff_exists.mp ?_).imp fun system ran => ⟨ran, operations_atomic ran⟩
  decide

end Kvs.Server
