/-
**The table as a ledger.**

`Refinement` compares the table with a finite map, which forgets where a pair stands. A `Ledger`
keeps the order as well: it lists the pairs, the key entered last in front, and a key that is
written again stays where it is. `HashTable.Holds` says that a table is a ledger kept in `26`
buckets; `acts_holds` is the step lemma: every call of a table function does to the ledger what
`StoreOp.post` says.

On top of it, `kvs_write`, `kvs_read`, `kvs_delete`, `kvs_show` and the backup child have one lemma
each, with the bytes they write computed from the ledger alone.
-/

import Kvs.Lib.SplitLedger
import Kvs.Store.Chains
import Kvs.Store.Replies

namespace Kvs.Server

open SplitLedger

/-- The pairs of the store, the key entered last in front. -/
abbrev Ledger := AList fun _ : CStr => CStr

/-- A pair of a ledger. -/
abbrev LedgerEntry := Sigma fun _ : CStr => CStr

/-- What a ledger knows of a node. -/
def KeyNode.entry (node : KeyNode) : LedgerEntry := ⟨node.key, node.value⟩

/-- The table keeps the ledger, each pair in the bucket of its key. -/
def HashTable.Holds (ht : HashTable) (ledger : Ledger) : Prop :=
  ∀ index, (ht.table index).map KeyNode.entry = slice bucketOf ledger index

/-- What a call does to the ledger. -/
def StoreOp.post : StoreOp → Ledger → Ledger
  | writePair key value, ledger => put key.1 value ledger
  | deletePair key, ledger => ledger.erase key.1
  | _, ledger => ledger

theorem createHashTable_holds : createHashTable.Holds ∅ := fun _ => rfl

/-! ### Nodes and pairs -/

variable {ht : HashTable} {ledger : Ledger}

theorem keys_map_entry (chain : List KeyNode) :
    (chain.map KeyNode.entry).keys = chain.map KeyNode.key := by
  rw [List.keys, List.map_map]
  rfl

theorem HashTable.Holds.chainKeys (holds : ht.Holds ledger) (index : Fin tableSize) :
    (ht.table index).map KeyNode.key = (slice bucketOf ledger index).keys := by
  rw [← keys_map_entry, holds]

theorem HashTable.Holds.wellFormed (holds : ht.Holds ledger) : ht.WellFormed where
  placed index node member := by
    have inside : node.key ∈ (slice bucketOf ledger index).keys :=
      holds.chainKeys index ▸ List.mem_map_of_mem member
    exact (mem_keys_slice.mp inside).1
  nodup index := by
    rw [holds.chainKeys]
    exact slice_nodupKeys ledger index

/-- A search in a chain is one for the pair. -/
theorem find_value (key : CStr) (chain : List KeyNode) :
    (ChainedTable.find KeyNode.key key chain).map KeyNode.value =
      List.dlookup key (chain.map KeyNode.entry) := by
  induction chain with
  | nil => rfl
  | cons node next ih =>
    rw [ChainedTable.find_cons, List.map_cons]
    by_cases same : node.key = key
    · subst same
      rw [if_pos rfl]
      exact (List.dlookup_cons_eq (next.map KeyNode.entry) node.key node.value).symm
    · rw [if_neg same, ih]
      exact (List.dlookup_cons_ne _ node.entry fun equal => same equal.symm).symm

/-- **The table is looked up as its ledger.** -/
theorem HashTable.Holds.lookup (holds : ht.Holds ledger) (key : Key) :
    ht.valueAt key = ledger.lookup key.1 := by
  obtain ⟨index, -, place⟩ := bucket_of_startsAlnum key.2
  rw [HashTable.valueAt, HashTable.lookup, ChainedTable.lookup_of_hash place, find_value, holds,
    dlookup_slice place]

theorem HashTable.FoundAt.mem_ledger {key : CStr} {index : Fin tableSize}
    {before after : List KeyNode} {node : KeyNode}
    (found : ht.FoundAt key index before node after) (holds : ht.Holds ledger) : key ∈ ledger := by
  have inside : node.key ∈ (slice bucketOf ledger index).keys :=
    holds.chainKeys index ▸ List.mem_map_of_mem found.mem
  exact found.same ▸ (mem_keys_slice.mp inside).2

theorem HashTable.MissingAt.notMem_ledger {key : CStr} {index : Fin tableSize}
    (missing : ht.MissingAt key index) (holds : ht.Holds ledger) : key ∉ ledger := by
  intro present
  have inside : key ∈ (ht.table index).map KeyNode.key := by
    rw [holds.chainKeys]
    exact mem_keys_slice.mpr ⟨missing.place, present⟩
  obtain ⟨node, member, same⟩ := List.mem_map.mp inside
  exact missing.others node member same

/-! ### One call -/

section Step

variable {key : CStr} {index : Fin tableSize} {before after : List KeyNode} {node : KeyNode}

/-- A chain replaced in its bucket. -/
theorem holds_setChain {ledger' : Ledger} (holds : ht.Holds ledger) {chain : List KeyNode}
    (here : chain.map KeyNode.entry = slice bucketOf ledger' index)
    (elsewhere : ∀ other, other ≠ index →
      slice bucketOf ledger' other = slice bucketOf ledger other) :
    (ht.setChain index chain).Holds ledger' := by
  intro other
  show (Function.update ht.table index chain other).map KeyNode.entry = _
  by_cases same : other = index
  · subst same
    rw [Function.update_self, here]
  · rw [Function.update_of_ne same, holds, elsewhere other same]

/-- A found node replaced by one with its key and this value. -/
theorem HashTable.FoundAt.holds_replaced (found : ht.FoundAt key index before node after)
    (holds : ht.Holds ledger) {kept : KeyNode} (sameKey : kept.key = key) :
    (ht.setChain index (before ++ kept :: after)).Holds (put key kept.value ledger) := by
  have present := found.mem_ledger holds
  have outside : key ∉ (before.map KeyNode.entry).keys := by
    rw [keys_map_entry]
    intro member
    obtain ⟨other, inside, same⟩ := List.mem_map.mp member
    exact found.others other inside same
  refine holds_setChain holds ?_ fun other different => ?_
  · have old : (ht.table index).map KeyNode.entry =
        before.map KeyNode.entry ++ ⟨key, node.value⟩ :: after.map KeyNode.entry := by
      rw [found.chain, List.map_append, List.map_cons, KeyNode.entry, found.same]
    rw [slice_put_present present, ← holds, old, kreplace_append _ _ outside, List.map_append,
      List.map_cons, KeyNode.entry, sameKey]
  · refine slice_put_of_ne _ (fun place => different ?_) ledger
    exact Option.some.inj (place.symm.trans found.place)

/-- A ledger does not notice a value written over itself. -/
theorem put_self {value : CStr} (written : ledger.lookup key = some value) :
    put key value ledger = ledger := by
  have member : (⟨key, value⟩ : LedgerEntry) ∈ ledger.entries := AList.mem_lookup_iff.mp written
  have present : key ∈ ledger := AList.mem_keys.mpr (List.mem_keys_of_mem member)
  rw [put, if_pos present]
  exact AList.ext (List.kreplace_self ledger.nodupKeys member)

/-- A found node replaced by one with its key and its value. -/
theorem HashTable.FoundAt.holds_kept (found : ht.FoundAt key index before node after)
    (holds : ht.Holds ledger) {kept : KeyNode} (sameKey : kept.key = node.key)
    (sameValue : kept.value = node.value) :
    (ht.setChain index (before ++ kept :: after)).Holds ledger := by
  have replaced := found.holds_replaced holds (sameKey.trans found.same)
  have written : ledger.lookup key = some kept.value := by
    rw [← dlookup_slice found.place, ← holds, ← find_value, found.chain,
      ChainedTable.find_append_of_not_mem _ found.others, ChainedTable.find_cons,
      if_pos found.same, sameValue]
    rfl
  rwa [put_self written] at replaced

/-- A found node taken out. -/
theorem HashTable.FoundAt.holds_unlinked (found : ht.FoundAt key index before node after)
    (holds : ht.Holds ledger) :
    (ht.setChain index (before ++ after)).Holds (ledger.erase key) := by
  have outside : key ∉ (before.map KeyNode.entry).keys := by
    rw [keys_map_entry]
    intro member
    obtain ⟨other, inside, same⟩ := List.mem_map.mp member
    exact found.others other inside same
  refine holds_setChain holds ?_ fun other different => ?_
  · have old : (ht.table index).map KeyNode.entry =
        before.map KeyNode.entry ++ node.entry :: after.map KeyNode.entry := by
      rw [found.chain, List.map_append, List.map_cons]
    rw [slice_erase, ← holds, old, List.kerase_append_right outside,
      List.kerase_cons_eq found.same.symm, List.map_append]
  · refine slice_erase_of_ne (fun place => different ?_) ledger
    exact Option.some.inj (place.symm.trans found.place)

/-- A node made at the head of its bucket. -/
theorem HashTable.MissingAt.holds_created (missing : ht.MissingAt key index)
    (holds : ht.Holds ledger) (value : CStr) :
    (ht.setChain index (⟨key, value, Slots.empty⟩ :: ht.table index)).Holds
      (put key value ledger) := by
  refine holds_setChain holds ?_ fun other different => ?_
  · rw [slice_put_absent (missing.notMem_ledger holds) value missing.place, List.map_cons, holds]
    rfl
  · refine slice_put_of_ne _ (fun place => different ?_) ledger
    exact Option.some.inj (place.symm.trans missing.place)

/-- The erased key was not there. -/
theorem HashTable.MissingAt.erase_eq (missing : ht.MissingAt key index)
    (holds : ht.Holds ledger) : ledger.erase key = ledger :=
  AList.ext (List.kerase_of_notMem_keys (missing.notMem_ledger holds))

theorem holds_mapNodes (holds : ht.Holds ledger) (rewrite : KeyNode → KeyNode)
    (keeps : ∀ node, (rewrite node).entry = node.entry) : (ht.mapNodes rewrite).Holds ledger := by
  intro index
  show ((ht.table index).map rewrite).map KeyNode.entry = _
  rw [List.map_map, ← holds]
  exact List.map_congr_left fun node _ => keeps node

end Step

/-- **The step lemma.** A call leaves a table of the ledger it leaves. -/
theorem Acts.holds {op : StoreOp} {outcome : Outcome} (acts : Acts ht op outcome)
    (holds : ht.Holds ledger) : outcome.table.Holds (op.post ledger) := by
  cases acts with
  | created value missing => exact missing.holds_created holds value
  | overwritten value found => exact found.holds_replaced holds found.same
  | unlinked found => exact found.holds_unlinked holds
  | @notUnlinked key index missing =>
    show ht.Holds (ledger.erase key.1)
    rw [missing.erase_eq holds]
    exact holds
  | read => exact holds
  | @subscribed key index before after node fd found =>
    exact found.holds_kept holds (node.exchange_key 0 fd) (node.exchange_value 0 fd)
  | notSubscribed => exact holds
  | @unsubscribed key index before after node fd found =>
    exact found.holds_kept holds (node.exchange_key fd 0) (node.exchange_value fd 0)
  | notUnsubscribed => exact holds
  | disconnected fd => exact holds_mapNodes holds _ fun _ => rfl
  | allDisconnected => exact holds_mapNodes holds _ fun _ => rfl

/-- A call ends, and leaves a table of the ledger it leaves. -/
theorem exec_holds (holds : ht.Holds ledger) (op : StoreOp) :
    ∃ outcome, op.exec ht = .ok outcome ∧ outcome.table.Holds (op.post ledger) := by
  obtain ⟨outcome, called, acts⟩ := exec_acts op ht
  exact ⟨outcome, called, acts.holds holds⟩

/-! ### What the operations write -/

/-- A text as it comes out of a buffer of `MAX_STRING_SIZE` bytes. -/
def cut (text : List Byte) : List Byte := text.take (maxStringSize - 1)

namespace Ledger

/-- WRITE: the pairs one after another. -/
def writeAll (pairs : List (CStr × CStr)) (ledger : Ledger) : Ledger :=
  pairs.foldl (fun ledger pair => put pair.1 pair.2 ledger) ledger

/-- DELETE: the keys one after another. -/
def eraseAll (keys : List CStr) (ledger : Ledger) : Ledger :=
  keys.foldl (fun ledger key => ledger.erase key) ledger

/-- The entry of a key in the reply to READ. -/
def answer (ledger : Ledger) (key : CStr) : List Byte :=
  cut (pairText key.bytes ((ledger.lookup key).elim errorText CStr.bytes))

/-- The reply to READ. -/
def readReply (ledger : Ledger) (keys : List CStr) : List Byte :=
  ascii ['['] ++ keys.flatMap ledger.answer ++ closingText

/-- The keys a DELETE does not find: absent ones, and repeated ones from the second time on. -/
def absentees : Ledger → List CStr → List CStr
  | _, [] => []
  | ledger, key :: keys =>
    if key ∈ ledger then absentees (ledger.erase key) keys else key :: absentees ledger keys

/-- The reply to DELETE: nothing when every key is found. -/
def deleteReply (ledger : Ledger) (keys : List CStr) : List Byte :=
  match ledger.absentees keys with
  | [] => []
  | absent =>
    ascii ['['] ++ (absent.flatMap fun key => cut (pairText key.bytes missingText)) ++ closingText

/-- The pairs in the order of a listing: bucket by bucket, the key entered last first. -/
def listed (ledger : Ledger) : List LedgerEntry :=
  (List.finRange tableSize).flatMap (slice bucketOf ledger)

/-- The line of a pair in a listing. -/
def line (entry : LedgerEntry) : List Byte :=
  cut (ascii ['('] ++ entry.1.bytes ++ ascii [',', ' '] ++ entry.2.bytes ++ ascii [')'] ++
    [newline])

/-- SHOW and BACKUP: a line for every pair. -/
def listing (ledger : Ledger) : List Byte := ledger.listed.flatMap line

end Ledger

theorem HashTable.Holds.nodes (holds : ht.Holds ledger) :
    ht.nodes.map KeyNode.entry = ledger.listed := by
  rw [HashTable.nodes, List.map_flatMap]
  exact congrArg (List.flatMap · _) (funext holds)

theorem backupLine_eq_line (node : KeyNode) : backupLine node = Ledger.line node.entry := by
  rw [backupLine_eq, fullLine, ← List.append_assoc]
  rfl

/-- **`kvs_show`** lists the ledger. -/
theorem kvsShow_holds (holds : ht.Holds ledger) : kvsShow ht = ledger.listing := by
  rw [kvsShow, Ledger.listing, ← holds.nodes, List.flatMap_map]
  rfl

/-- **The backup child** lists the ledger. -/
theorem backupContent_holds (holds : ht.Holds ledger) : backupContent ht = ledger.listing := by
  rw [backupContent, Ledger.listing, ← holds.nodes, List.flatMap_map]
  exact congrArg (List.flatMap · _) (funext backupLine_eq_line)

section Operations

variable {shared : Shared}

/-- **`kvs_write`** puts its pairs into the ledger. -/
theorem kvsWrite_holds (holds : shared.table.Holds ledger) {pairs : List (CStr × CStr)}
    (alnum : ∀ pair ∈ pairs, startsAlnum pair.1) :
    ∃ after, kvsWrite pairs shared = .ok (0, after) ∧
      after.table.Holds (ledger.writeAll pairs) := by
  have wrote : ∃ after, writePairs pairs shared = .ok after ∧
      after.table.Holds (ledger.writeAll pairs) := by
    induction pairs generalizing shared ledger with
    | nil => exact ⟨shared, rfl, holds⟩
    | cons pair pairs ih =>
      obtain ⟨here, alnum⟩ := List.forall_mem_cons.mp alnum
      obtain ⟨outcome, called, kept⟩ := exec_holds holds (.writePair ⟨pair.1, here⟩ pair.2)
      obtain ⟨⟨code, table, sent⟩, written, rfl⟩ := map_ok_inv called
      have kept : (Shared.mk table (shared.notified ++ sent)).table.Holds _ := kept
      obtain ⟨after, later, held⟩ := ih kept alnum
      refine ⟨after, ?_, held⟩
      show (writePair _ _ _).bind _ = _
      rw [written]
      exact later
  obtain ⟨after, written, held⟩ := wrote
  refine ⟨after, ?_, held⟩
  rw [kvsWrite, written]
  rfl

/-- **`kvs_read`** answers from the ledger. -/
theorem kvsRead_holds (holds : shared.table.Holds ledger) {keys : List CStr}
    (alnum : ∀ key ∈ keys, startsAlnum key) :
    kvsRead keys shared = .ok (0, ledger.readReply keys) := by
  have entries : readEntries keys shared.table = .ok (keys.flatMap ledger.answer) := by
    induction keys with
    | nil => rfl
    | cons key keys ih =>
      obtain ⟨here, alnum⟩ := List.forall_mem_cons.mp alnum
      have entry : readEntry shared.table key = .ok (ledger.answer key) := by
        rw [readEntry_eq shared.table ⟨key, here⟩, readText, holds.lookup]
        rfl
      rw [readEntries, entry, ih alnum]
      rfl
  rw [kvsRead, entries]
  rfl

/-- **`kvs_delete`** erases its keys from the ledger and names the ones it does not find. -/
theorem kvsDelete_holds (holds : shared.table.Holds ledger) {keys : List CStr}
    (alnum : ∀ key ∈ keys, startsAlnum key) :
    ∃ after, kvsDelete keys shared = .ok (0, ledger.deleteReply keys, after) ∧
      after.table.Holds (ledger.eraseAll keys) := by
  have deleted : ∀ aux, ∃ after, deleteKeys keys aux shared =
      .ok (aux || !(ledger.absentees keys).isEmpty,
        (if aux || (ledger.absentees keys).isEmpty then [] else ascii ['[']) ++
          (ledger.absentees keys).flatMap (fun key => cut (pairText key.bytes missingText)),
        after) ∧ after.table.Holds (ledger.eraseAll keys) := by
    induction keys generalizing shared ledger with
    | nil =>
      intro aux
      refine ⟨shared, ?_, holds⟩
      cases aux <;> rfl
    | cons key keys ih =>
      intro aux
      obtain ⟨here, alnum⟩ := List.forall_mem_cons.mp alnum
      obtain ⟨outcome, called, acts⟩ := exec_acts (.deletePair ⟨key, here⟩) shared.table
      obtain ⟨⟨code, table, sent⟩, removed, rfl⟩ := map_ok_inv called
      have kept : (Shared.mk table (shared.notified ++ sent)).table.Holds (ledger.erase key) :=
        acts.holds holds
      have later := ih kept alnum
      cases acts with
      | unlinked found =>
        obtain ⟨after, rest, held⟩ := later aux
        refine ⟨after, ?_, held⟩
        have present : key ∈ ledger := found.mem_ledger holds
        rw [deleteKeys, Ledger.absentees, if_pos present, removed]
        exact rest
      | notUnlinked missing =>
        have absent : key ∉ ledger := missing.notMem_ledger holds
        rw [missing.erase_eq holds] at later
        obtain ⟨after, rest, held⟩ := later true
        refine ⟨after, ?_, ?_⟩
        · rw [deleteKeys, Ledger.absentees, if_neg absent, removed]
          simp only [bind, Except.bind, ne_eq, one_ne_zero, not_false_eq_true, if_true, rest]
          cases aux <;> rfl
        · show after.table.Holds (Ledger.eraseAll keys (ledger.erase key))
          rw [missing.erase_eq holds]
          exact held
  obtain ⟨after, removed, held⟩ := deleted false
  refine ⟨after, ?_, held⟩
  rw [kvsDelete, removed, Ledger.deleteReply]
  cases ledger.absentees keys <;> rfl

end Operations

end Kvs.Server
