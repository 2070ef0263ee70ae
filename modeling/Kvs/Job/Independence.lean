/-
**Jobs with different keys do not disturb each other.**

Two jobs share the chains of the table even when they share no key: one inserts at the head of a
chain the other walks, or unlinks a node in its middle. What a table holds at a key is therefore not
a place in a chain but `HashTable.nodesOf`, the nodes of the key in the order of their chain.

* `PairOp` is one call of `write_pair`, `read_pair` or `delete_pair`. `PairOp.act` is what it does
  to the nodes of its key; `exec_act` says that it does nothing else.
* `KeyCommand` is a WRITE, READ or DELETE with its keys. `call_eq` gives what `kvs_write`,
  `kvs_read` and `kvs_delete` write and leave from the calls they make.
* Both are local in the sense of `Footprint`, whose interleaving rule is the result.
-/

import Kvs.Lib.Footprint
import Kvs.Store.Notification

namespace Kvs.Server

open Footprint

/-! ### The nodes of a key -/

/-- The nodes of a key, in the order of its chain. -/
def HashTable.nodesOf (ht : HashTable) (key : CStr) : List KeyNode :=
  match bucketOf key with
  | some index => ChainedTable.nodesOf KeyNode.key key (ht.table index)
  | none => []

theorem lookup_eq_head? (ht : HashTable) (key : CStr) : ht.lookup key = (ht.nodesOf key).head? := by
  unfold HashTable.lookup HashTable.nodesOf ChainedTable.lookup
  cases place : bucketOf key with
  | none => rfl
  | some index => exact ChainedTable.find_eq_head? key (ht.table index)

section NodesOf

variable {ht : HashTable} {key : CStr} {index : Fin tableSize} {chain : List KeyNode}

theorem nodesOf_eq (place : bucketOf key = some index) :
    ht.nodesOf key = ChainedTable.nodesOf KeyNode.key key (ht.table index) := by
  rw [HashTable.nodesOf, place]

theorem nodesOf_setChain (place : bucketOf key = some index) :
    (ht.setChain index chain).nodesOf key = ChainedTable.nodesOf KeyNode.key key chain := by
  rw [nodesOf_eq place]
  simp [HashTable.setChain]

/-- A chain that keeps the nodes of a key keeps them in the table, in whatever bucket it is. -/
theorem nodesOf_setChain_of_eq
    (kept : ChainedTable.nodesOf KeyNode.key key chain =
      ChainedTable.nodesOf KeyNode.key key (ht.table index)) :
    (ht.setChain index chain).nodesOf key = ht.nodesOf key := by
  cases place : bucketOf key with
  | none => simp [HashTable.nodesOf, place]
  | some home =>
    by_cases same : home = index
    · subst same
      rw [nodesOf_setChain place, nodesOf_eq place, kept]
    · rw [nodesOf_eq place, nodesOf_eq place]
      simp [HashTable.setChain, Function.update_of_ne same]

/-- A visit along the chain of a key is one along its nodes. -/
theorem visitKey_nodesOf (ht : HashTable) {ρ : Type} {found : KeyNode → ρ × Option KeyNode}
    (keeps : ChainedTable.Keeps KeyNode.key found) (place : bucketOf key = some index) :
    visitKey key found (ht.nodesOf key) =
      (visitKey key found (ht.table index)).map fun outcome =>
        (outcome.1, ChainedTable.nodesOf KeyNode.key key outcome.2) := by
  rw [nodesOf_eq place]
  exact ChainedTable.visit_nodesOf keeps key (ht.table index)

/-- It leaves the nodes of every other key. -/
theorem nodesOf_visited {ρ : Type} {found : KeyNode → ρ × Option KeyNode}
    (keeps : ChainedTable.Keeps KeyNode.key found) {outcome : ρ × List KeyNode}
    (visited : visitKey key found (ht.table index) = some outcome) :
    ∀ other ≠ key, (ht.setChain index outcome.2).nodesOf other = ht.nodesOf other :=
  fun _ different =>
    nodesOf_setChain_of_eq (ChainedTable.nodesOf_visit_of_ne keeps visited different)

end NodesOf

/-! ### One call on one key -/

/-- A call of `write_pair`, `read_pair` or `delete_pair`. -/
inductive PairOp where
  | write (key : Key) (value : CStr)
  | read (key : Key)
  | delete (key : Key)
deriving DecidableEq

/-- What came of a call: its key, what it returned and what it sent. -/
structure Entry where
  key : CStr
  answer : Answer
  sent : List Notification
deriving DecidableEq

namespace PairOp

/-- The key of the call. -/
def key : PairOp → Key
  | write key _ | read key | delete key => key

/-- Make the call. -/
def exec : PairOp → HashTable → Except Fault (Entry × HashTable)
  | write key value, ht =>
    (writePair ht key.1 value).map fun (code, table, sent) => (⟨key.1, .code code, sent⟩, table)
  | read key, ht => (readPair ht key.1).map fun value => (⟨key.1, .text value, []⟩, ht)
  | delete key, ht =>
    (deletePair ht key.1).map fun (code, table, sent) => (⟨key.1, .code code, sent⟩, table)

/-- What the call does to the nodes of its key. -/
def act : PairOp → List KeyNode → Entry × List KeyNode
  | write key value, nodes =>
    match visitKey key.1 (KeyNode.overwrite key.1 value) nodes with
    | some (sent, nodes) => (⟨key.1, .code 0, sent⟩, nodes)
    | none => (⟨key.1, .code 0, []⟩, ⟨key.1, value, Slots.empty⟩ :: nodes)
  | read key, nodes => (⟨key.1, .text (nodes.head?.map KeyNode.value), []⟩, nodes)
  | delete key, nodes =>
    match visitKey key.1 (KeyNode.unlink key.1) nodes with
    | some (sent, nodes) => (⟨key.1, .code 0, sent⟩, nodes)
    | none => (⟨key.1, .code 1, []⟩, nodes)

theorem overwrite_keeps (key value : CStr) :
    ChainedTable.Keeps KeyNode.key (KeyNode.overwrite key value) := by
  intro node kept stays
  cases stays
  rfl

theorem unlink_keeps (key : CStr) : ChainedTable.Keeps KeyNode.key (KeyNode.unlink key) := by
  intro node kept stays
  cases stays

/-- **A call acts on the nodes of its key** and leaves those of every other key. -/
theorem exec_act (op : PairOp) (ht : HashTable) :
    ∃ table, op.exec ht = .ok ((op.act (ht.nodesOf op.key.1)).1, table) ∧
      table.nodesOf op.key.1 = (op.act (ht.nodesOf op.key.1)).2 ∧
      ∀ other ≠ op.key.1, table.nodesOf other = ht.nodesOf other := by
  cases op with
  | write key value =>
    obtain ⟨index, access, place⟩ := bucket_of_startsAlnum key.2
    have visit := visitKey_nodesOf ht (overwrite_keeps key.1 value) place
    simp only [PairOp.key]
    cases visited : visitKey key.1 (KeyNode.overwrite key.1 value) (ht.table index) with
    | none =>
      rw [visited] at visit
      simp only [act, visit, Option.map_none]
      let node : KeyNode := ⟨key.1, value, Slots.empty⟩
      have isKey : node.key = key.1 := rfl
      refine ⟨ht.setChain index (node :: ht.table index), ?_, ?_, fun other different => ?_⟩
      · simp only [exec, writePair, access, visited, bind, Except.bind]
        rfl
      · rw [nodesOf_setChain place, ChainedTable.nodesOf_cons_self isKey, nodesOf_eq place]
      · have nodeOther : node.key ≠ other := Ne.symm different
        exact nodesOf_setChain_of_eq (ChainedTable.nodesOf_cons_of_ne nodeOther _)
    | some outcome =>
      rw [visited] at visit
      simp only [act, visit, Option.map_some]
      refine ⟨ht.setChain index outcome.2, ?_, nodesOf_setChain place,
        nodesOf_visited (overwrite_keeps key.1 value) visited⟩
      simp only [exec, writePair, access, visited, bind, Except.bind]
      rfl
  | read key =>
    refine ⟨ht, ?_, rfl, fun _ _ => rfl⟩
    simp only [exec, act, readPair_spec, lookup_eq_head?, PairOp.key]
    rfl
  | delete key =>
    obtain ⟨index, access, place⟩ := bucket_of_startsAlnum key.2
    have visit := visitKey_nodesOf ht (unlink_keeps key.1) place
    simp only [PairOp.key]
    cases visited : visitKey key.1 (KeyNode.unlink key.1) (ht.table index) with
    | none =>
      rw [visited] at visit
      simp only [act, visit, Option.map_none]
      refine ⟨ht, ?_, rfl, fun _ _ => rfl⟩
      simp only [exec, deletePair, access, visited, bind, Except.bind]
      rfl
    | some outcome =>
      rw [visited] at visit
      simp only [act, visit, Option.map_some]
      refine ⟨ht.setChain index outcome.2, ?_, nodesOf_setChain place,
        nodesOf_visited (unlink_keeps key.1) visited⟩
      simp only [exec, deletePair, access, visited, bind, Except.bind]
      rfl

end PairOp

/-- What an entry sends for a key. -/
def Entry.framesFor (entry : Entry) (key : CStr) : List Notification :=
  if entry.key = key then entry.sent else []

theorem PairOp.act_key (op : PairOp) (nodes : List KeyNode) : (op.act nodes).1.key = op.key.1 := by
  cases op with
  | write key value => simp only [act]; split <;> rfl
  | read key => rfl
  | delete key => simp only [act]; split <;> rfl

/-- **Calls on keys are local.** -/
theorem pairOp_local :
    Local HashTable.nodesOf Entry.framesFor (fun op : PairOp => {op.key.1}) PairOp.exec where
  total op ht := by
    obtain ⟨table, executed, -⟩ := op.exec_act ht
    exact ⟨_, table, executed⟩
  frame {op ht entry table} executed := by
    obtain ⟨table', executed', -, others⟩ := op.exec_act ht
    cases executed.symm.trans executed'
    exact others
  silent {op ht entry table} executed key untouched := by
    obtain ⟨table', executed', -⟩ := op.exec_act ht
    cases executed.symm.trans executed'
    unfold Entry.framesFor
    rw [op.act_key, if_neg (Ne.symm untouched)]
  same {op first second entry entry' table table'} agree executed executed' := by
    obtain ⟨_, called, left, -⟩ := op.exec_act first
    obtain ⟨_, called', left', -⟩ := op.exec_act second
    cases executed.symm.trans called
    cases executed'.symm.trans called'
    rw [agree rfl] at left ⊢
    exact ⟨rfl, Set.eqOn_singleton.mpr (left.trans left'.symm)⟩

/-! ### Commands -/

/-- A WRITE, READ or DELETE command. -/
inductive KeyCommand where
  | write (pairs : List (Key × CStr))
  | read (keys : List Key)
  | delete (keys : List Key)
deriving DecidableEq

/-- What a command did: the bytes written to its output file, the frames sent, and what came of each
of its calls. -/
structure Report where
  out : List Byte
  notified : List Notification
  entries : List Entry
deriving DecidableEq

/-- What the entry of a READ writes. -/
def Entry.readText (entry : Entry) : List Byte :=
  match entry.answer with
  | .text (some value) => snprintf maxStringSize (pairText entry.key.bytes value.bytes)
  | _ => snprintf maxStringSize (pairText entry.key.bytes errorText)

/-- The entry found no node to delete. -/
def Entry.Missing (entry : Entry) : Prop := entry.answer ≠ .code 0

instance (entry : Entry) : Decidable entry.Missing :=
  inferInstanceAs (Decidable (entry.answer ≠ .code 0))

/-- The entries of a DELETE that found no node. -/
def missing (entries : List Entry) : List Entry := entries.filter fun entry => entry.Missing

namespace KeyCommand

/-- The calls of the command, in order. -/
def ops : KeyCommand → List PairOp
  | write pairs => pairs.map fun pair => .write pair.1 pair.2
  | read keys => keys.map .read
  | delete keys => keys.map .delete

/-- The keys of the command. -/
def keys (command : KeyCommand) : List CStr := command.ops.map fun op => op.key.1

/-- `kvs_write`, `kvs_read` or `kvs_delete`: the bytes for the output file, and what is shared
afterwards. -/
def call : KeyCommand → Shared → Except Fault (List Byte × Shared)
  | write pairs, shared => do
    let (_, shared) ← kvsWrite (pairs.map fun pair => (pair.1.1, pair.2)) shared
    return ([], shared)
  | read keys, shared => do
    let (_, out) ← kvsRead (keys.map Subtype.val) shared
    return (out, shared)
  | delete keys, shared => do
    let (_, out, shared) ← kvsDelete (keys.map Subtype.val) shared
    return (out, shared)

/-- Make the call, and note beside it what its `write_pair`, `read_pair` and `delete_pair` return
and send. -/
def exec (command : KeyCommand) (table : HashTable) : Except Fault (Report × HashTable) := do
  let (out, shared) ← command.call ⟨table, []⟩
  let (entries, _) ← runAll PairOp.exec command.ops table
  return (⟨out, shared.notified, entries⟩, shared.table)

/-- What a command writes, given what came of its calls. -/
def text : KeyCommand → List Entry → List Byte
  | write _, _ => []
  | read _, entries => ascii ['['] ++ entries.flatMap Entry.readText ++ closingText
  | delete _, entries =>
    if missing entries = [] then []
    else ascii ['['] ++ (missing entries).flatMap (fun entry => missingEntry entry.key) ++
      closingText

end KeyCommand

/-! ### What the functions make of their calls -/

theorem writePairs_runAll {pairs : List (Key × CStr)} {table after : HashTable}
    {entries : List Entry}
    (run : runAll PairOp.exec (KeyCommand.write pairs).ops table = .ok (entries, after))
    (notified : List Notification) :
    writePairs (pairs.map fun pair => (pair.1.1, pair.2)) ⟨table, notified⟩ =
      .ok ⟨after, notified ++ entries.flatMap Entry.sent⟩ := by
  induction pairs generalizing table entries notified with
  | nil =>
    cases run
    simp [writePairs]
  | cons pair pairs ih =>
    obtain ⟨entry, middle, rest, executed, later, rfl⟩ := runAll_cons_inv run
    obtain ⟨outcome, called, same⟩ := map_ok_inv executed
    obtain ⟨code, table', sent⟩ := outcome
    cases same
    simp only [List.map_cons, writePairs, called, bind, Except.bind]
    rw [ih later, List.flatMap_cons, List.append_assoc]

theorem readEntries_runAll {keys : List Key} {table after : HashTable} {entries : List Entry}
    (run : runAll PairOp.exec (KeyCommand.read keys).ops table = .ok (entries, after)) :
    readEntries (keys.map Subtype.val) table = .ok (entries.flatMap Entry.readText) ∧
      after = table ∧ entries.flatMap Entry.sent = [] := by
  induction keys generalizing entries with
  | nil =>
    cases run
    exact ⟨rfl, rfl, rfl⟩
  | cons key keys ih =>
    obtain ⟨entry, middle, rest, executed, later, rfl⟩ := runAll_cons_inv run
    obtain ⟨value, called, same⟩ := map_ok_inv executed
    cases same
    obtain ⟨read, unchanged, silent⟩ := ih later
    refine ⟨?_, unchanged, by rw [List.flatMap_cons, silent]; rfl⟩
    have entry : readEntry table key.1 = .ok (Entry.readText ⟨key.1, .text value, []⟩) := by
      simp only [readEntry, called, bind, Except.bind]
      cases value <;> rfl
    simp only [List.map_cons, readEntries, entry, read, bind, Except.bind]
    rfl

theorem deleteKeys_runAll {keys : List Key} {table after : HashTable} {entries : List Entry}
    (run : runAll PairOp.exec (KeyCommand.delete keys).ops table = .ok (entries, after))
    (aux : Bool) (notified : List Notification) :
    deleteKeys (keys.map Subtype.val) aux ⟨table, notified⟩ =
      .ok (aux || decide (missing entries ≠ []),
        (if aux ∨ missing entries = [] then [] else ascii ['[']) ++
          (missing entries).flatMap (fun entry => missingEntry entry.key),
        ⟨after, notified ++ entries.flatMap Entry.sent⟩) := by
  induction keys generalizing table entries aux notified with
  | nil =>
    cases run
    simp [deleteKeys, missing]
  | cons key keys ih =>
    obtain ⟨entry, middle, rest, executed, later, rfl⟩ := runAll_cons_inv run
    obtain ⟨outcome, called, same⟩ := map_ok_inv executed
    obtain ⟨code, table', sent⟩ := outcome
    cases same
    simp only [List.map_cons, deleteKeys, called, bind, Except.bind]
    by_cases found : code = 0
    · have kept : missing (⟨key.1, .code code, sent⟩ :: rest) = missing rest :=
        List.filter_cons_of_neg (by simp [Entry.Missing, found])
      rw [if_neg (by simpa using found), ih later, kept, List.flatMap_cons, List.append_assoc]
    · have kept : missing (⟨key.1, .code code, sent⟩ :: rest) =
          ⟨key.1, .code code, sent⟩ :: missing rest :=
        List.filter_cons_of_pos (by simp [Entry.Missing, found])
      rw [if_pos (by simpa using found), ih later, kept]
      cases aux <;> simp [pure, Except.pure]

/-- **What a command writes, sends and leaves** is decided by what comes of its calls. -/
theorem KeyCommand.call_eq {command : KeyCommand} {table after : HashTable} {entries : List Entry}
    (run : runAll PairOp.exec command.ops table = .ok (entries, after)) :
    command.call ⟨table, []⟩ =
      .ok (command.text entries, ⟨after, entries.flatMap Entry.sent⟩) := by
  cases command with
  | write pairs =>
    simp only [call, kvsWrite, writePairs_runAll run, bind, Except.bind]
    rfl
  | read keys =>
    obtain ⟨read, rfl, silent⟩ := readEntries_runAll run
    simp only [call, kvsRead, read, silent, bind, Except.bind]
    rfl
  | delete keys =>
    simp only [call, kvsDelete, deleteKeys_runAll run, bind, Except.bind, text]
    by_cases none : missing entries = []
    · simp [none, pure, Except.pure]
    · simp [none, pure, Except.pure]

/-- The frames a command sends for a key, in order. -/
def Report.framesFor (report : Report) (key : CStr) : List Notification :=
  logAll Entry.framesFor report.entries key

/-- The keys a command touches. -/
def KeyCommand.touched (command : KeyCommand) : Set CStr := {key | key ∈ command.keys}

theorem KeyCommand.touched_eq (command : KeyCommand) :
    command.touched = touchesAny (fun op : PairOp => {op.key.1}) command.ops := by
  ext key
  simp [touched, keys, touchesAny, eq_comm]

/-- Executing a command is executing its calls. -/
theorem KeyCommand.exec_inv {command : KeyCommand} {table after : HashTable} {report : Report}
    (executed : command.exec table = .ok (report, after)) :
    runAll PairOp.exec command.ops table = .ok (report.entries, after) ∧
      report =
        ⟨command.text report.entries, report.entries.flatMap Entry.sent, report.entries⟩ := by
  obtain ⟨entries, left, run⟩ := pairOp_local.runAll_total command.ops table
  simp only [exec, call_eq run, run, bind, Except.bind] at executed
  cases executed
  exact ⟨run, rfl⟩

/-- **Commands are local.** -/
theorem keyCommand_local :
    Local HashTable.nodesOf Report.framesFor KeyCommand.touched KeyCommand.exec where
  total command table := by
    obtain ⟨entries, after, run⟩ := pairOp_local.runAll_total command.ops table
    refine ⟨⟨command.text entries, entries.flatMap Entry.sent, entries⟩, after, ?_⟩
    simp only [KeyCommand.exec, KeyCommand.call_eq run, run, bind, Except.bind]
    rfl
  frame {command table report after} executed := by
    rw [command.touched_eq]
    exact pairOp_local.runAll_frame (KeyCommand.exec_inv executed).1
  silent {command table report after} executed := by
    rw [command.touched_eq]
    exact pairOp_local.runAll_silent (KeyCommand.exec_inv executed).1
  same {command first second report report' after after'} agree executed executed' := by
    rw [command.touched_eq] at agree ⊢
    obtain ⟨run, reported⟩ := KeyCommand.exec_inv executed
    obtain ⟨run', reported'⟩ := KeyCommand.exec_inv executed'
    obtain ⟨sameEntries, agreeAfter⟩ := pairOp_local.runAll.same agree run run'
    rw [reported, reported', sameEntries]
    exact ⟨rfl, agreeAfter⟩

/-! ### Two jobs -/

/-- An interleaving of the commands of two jobs that have no key in common. -/
structure IndependentJobs where
  commands : List (KeyCommand ⊕ KeyCommand)
  disjoint : ∀ first ∈ lefts commands, ∀ second ∈ rights commands, ∀ key ∈ first.keys,
    key ∉ second.keys

namespace IndependentJobs

variable (jobs : IndependentJobs)

/-- The first job, and then the second one. -/
def firstThenSecond : List (KeyCommand ⊕ KeyCommand) :=
  (lefts jobs.commands).map .inl ++ (rights jobs.commands).map .inr

/-- The second job, and then the first one. -/
def secondThenFirst : List (KeyCommand ⊕ KeyCommand) :=
  (rights jobs.commands).map .inr ++ (lefts jobs.commands).map .inl

theorem lefts_firstThenSecond : lefts jobs.firstThenSecond = lefts jobs.commands := by
  simp [firstThenSecond, lefts, List.filterMap_map, Function.comp_def]

theorem rights_firstThenSecond : rights jobs.firstThenSecond = rights jobs.commands := by
  simp [firstThenSecond, rights, List.filterMap_map, Function.comp_def]

theorem lefts_secondThenFirst : lefts jobs.secondThenFirst = lefts jobs.commands := by
  simp [secondThenFirst, lefts, List.filterMap_map, Function.comp_def]

theorem rights_secondThenFirst : rights jobs.secondThenFirst = rights jobs.commands := by
  simp [secondThenFirst, rights, List.filterMap_map, Function.comp_def]

/-- The keys of the first job are its own. -/
theorem apart : Apart KeyCommand.touched (touchesAny KeyCommand.touched (lefts jobs.commands))
    jobs.commands where
  left := Set.Subset.refl _
  right := by
    rintro key ⟨second, listed, member⟩ ⟨first, listed', member'⟩
    exact jobs.disjoint first listed' second listed key member' member

end IndependentJobs

/-- Run the commands of two jobs in the order given: the reports, each with its job, and the table
left. -/
def runJobs (commands : List (KeyCommand ⊕ KeyCommand)) (start : HashTable) :
    Except Fault (List (Report ⊕ Report) × HashTable) :=
  runAll (execTagged KeyCommand.exec) commands start

/-- The frames sent for a key by all commands, in order. -/
def framesFor (reports : List (Report ⊕ Report)) (key : CStr) : List Notification :=
  logAll (logTagged Report.framesFor) reports key

/-- Two runs give the same: each job's reports, the frames of every key in order, and what the table
holds at every key. -/
structure SameResults (run other : List (Report ⊕ Report) × HashTable) : Prop where
  first : lefts run.1 = lefts other.1
  second : rights run.1 = rights other.1
  frames : ∀ key, framesFor run.1 key = framesFor other.1 key
  nodes : ∀ key, run.2.lookup key = other.2.lookup key

theorem runJobs_sameResults (jobs : IndependentJobs) {other : List (KeyCommand ⊕ KeyCommand)}
    (sameLefts : lefts other = lefts jobs.commands)
    (sameRights : rights other = rights jobs.commands) (start : HashTable) :
    ∃ mixed serial, runJobs jobs.commands start = .ok mixed ∧
      runJobs other start = .ok serial ∧ SameResults mixed serial := by
  obtain ⟨reports, after, reports', after', run, run', first, second, frames, nodes⟩ :=
    order_irrelevant keyCommand_local jobs.apart sameLefts sameRights start
  refine ⟨(reports, after), (reports', after'), run, run', first, second, frames, fun key => ?_⟩
  rw [lookup_eq_head?, lookup_eq_head?, nodes]

/-- **Independent jobs do not disturb each other.** Every interleaving of their commands gives the
same as the one job run after the other, in either order. -/
theorem independent_jobs (jobs : IndependentJobs) (start : HashTable) :
    ∃ mixed one other, runJobs jobs.commands start = .ok mixed ∧
      runJobs jobs.firstThenSecond start = .ok one ∧
      runJobs jobs.secondThenFirst start = .ok other ∧
      SameResults mixed one ∧ SameResults mixed other := by
  obtain ⟨mixed, one, run, runOne, same⟩ := runJobs_sameResults jobs jobs.lefts_firstThenSecond
    jobs.rights_firstThenSecond start
  obtain ⟨mixed', other, run', runOther, same'⟩ := runJobs_sameResults jobs
    jobs.lefts_secondThenFirst jobs.rights_secondThenFirst start
  cases run.symm.trans run'
  exact ⟨mixed, one, other, run, runOne, runOther, same, same'⟩

/-- One job writes and reads `a`, the other deletes `anna` twice and writes it in between. -/
def jobsOfOneBucket : IndependentJobs where
  commands :=
    [.inr (.delete [keyAnna]), .inl (.write [(keyA, valueAnna)]), .inr (.write [(keyAnna, keyA.1)]),
      .inl (.read [keyA]), .inr (.delete [keyAnna])]
  disjoint := by decide

/-- Both keys come into one chain, and a client subscribes to `a`. -/
def sharedChainOps : List StoreOp :=
  [.writePair keyA keyA.1, .writePair keyAnna keyA.1, .writeSubscription keyA clientFd.1]

/-- The two jobs change one chain, and the client hears of the write to its key. -/
theorem independent_jobs_one_bucket :
    bucketOf keyA.1 = bucketOf keyAnna.1 ∧
    ∃ start, runOps sharedChainOps createHashTable = .ok start ∧
      ∃ mixed one other, runJobs jobsOfOneBucket.commands start = .ok mixed ∧
        runJobs jobsOfOneBucket.firstThenSecond start = .ok one ∧
        runJobs jobsOfOneBucket.secondThenFirst start = .ok other ∧
        SameResults mixed one ∧ SameResults mixed other ∧
        (framesFor mixed.1 keyA.1).map Notification.fd = [clientFd.1] := by
  refine ⟨by decide, ?_⟩
  obtain ⟨_, start, run, ops, _⟩ := run_exists createHashTable_wellFormed sharedChainOps
  have ran : runOps sharedChainOps createHashTable = .ok start := ops ▸ run.runOps
  obtain ⟨mixed, one, other, run, runOne, runOther, same, same'⟩ :=
    independent_jobs jobsOfOneBucket start
  have heard : ((runOps sharedChainOps createHashTable).bind
      (runJobs jobsOfOneBucket.commands)).map
      (fun mixed => (framesFor mixed.1 keyA.1).map Notification.fd) = .ok [clientFd.1] := rfl
  rw [ran, Except.bind, run] at heard
  exact ⟨start, ran, mixed, one, other, run, runOne, runOther, same, same', Except.ok.inj heard⟩

end Kvs.Server
