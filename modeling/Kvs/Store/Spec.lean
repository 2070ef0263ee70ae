/-
**The table functions as operations on a finite map.**

`HashTable.lookup` is the map a table stands for: from keys to nodes. `HashTable.WellFormed` is the
invariant of the `26` chains: every node lies in the bucket `hash` gives its key, and no chain has
a key twice. The table instantiates `ChainedTable` with `bucketOf`, the partial hash.

Each function has one specification lemma: on a well-formed table and a key that starts with a
letter or digit it does not fault, keeps the invariant, and acts on the map as stated. Nothing
below looks into a chain again.
-/

import Kvs.Server.Operations

namespace Kvs.Server

/-- A key the table has a bucket for. -/
abbrev Key := { key : CStr // startsAlnum key }

/-- The bucket of a key; none when `hash` answers no index. -/
def bucketOf (key : CStr) : Option (Fin tableSize) := (HashTable.bucket (hash key)).toOption

/-- Every node in the bucket of its key, and no key twice. -/
def HashTable.WellFormed (ht : HashTable) : Prop :=
  ChainedTable.WellFormed KeyNode.key bucketOf ht.table

/-- The map a table stands for. -/
def HashTable.lookup (ht : HashTable) (key : CStr) : Option KeyNode :=
  ChainedTable.lookup KeyNode.key bucketOf ht.table key

/-! ### The bucket of a key -/

/-- A key that starts with a letter or digit has a bucket. -/
theorem bucket_of_startsAlnum {key : CStr} (alnum : startsAlnum key) :
    ∃ index, HashTable.bucket (hash key) = .ok index ∧ bucketOf key = some index := by
  have bounds := hash_bounds alnum
  refine ⟨⟨(hash key).toNat, by omega⟩, ?_, ?_⟩
  · rw [HashTable.bucket, dif_pos bounds]
  · rw [bucketOf, HashTable.bucket, dif_pos bounds]
    rfl

/-- Every other key sends the access to index `-1`. -/
theorem bucket_of_not_startsAlnum {key : CStr} (other : ¬ startsAlnum key) :
    HashTable.bucket (hash key) = .error (.bucket (-1)) := by
  rw [hash_of_not_startsAlnum other, HashTable.bucket, dif_neg (by omega)]

/-! ### Reading -/

theorem createHashTable_wellFormed : createHashTable.WellFormed :=
  ChainedTable.wellFormed_empty

@[simp] theorem createHashTable_lookup (key : CStr) : createHashTable.lookup key = none :=
  ChainedTable.lookup_empty key

/-- The nodes in the chains are the entries of the map. -/
theorem HashTable.lookup_eq_some_iff {ht : HashTable} (wf : ht.WellFormed) {key : CStr}
    {node : KeyNode} :
    ht.lookup key = some node ↔ (∃ index, node ∈ ht.table index) ∧ node.key = key :=
  ChainedTable.lookup_eq_some_iff wf

/-- `read_pair` reads the value off the map. -/
theorem readPair_spec (ht : HashTable) (key : Key) :
    readPair ht key.1 = .ok ((ht.lookup key.1).map KeyNode.value) := by
  obtain ⟨index, access, place⟩ := bucket_of_startsAlnum key.2
  rw [readPair, access, HashTable.lookup, ChainedTable.lookup_of_hash place]
  rfl

/-! ### Visiting a key's node -/

section Visit

variable {ρ : Type} {ht : HashTable} {key : CStr} {index : Fin tableSize}
  {found : KeyNode → ρ × Option KeyNode}

/-- What a walk along the key's chain does, in terms of the map. -/
theorem visitKey_some (found : KeyNode → ρ × Option KeyNode) (wf : ht.WellFormed)
    (place : bucketOf key = some index)
    (keeps : ChainedTable.Keeps KeyNode.key found) {node : KeyNode}
    (present : ht.lookup key = some node) :
    ∃ chain, visitKey key found (ht.table index) = some ((found node).1, chain) ∧
      (ht.setChain index chain).WellFormed ∧
      (ht.setChain index chain).lookup = Function.update ht.lookup key (found node).2 := by
  have inChain := present
  rw [HashTable.lookup, ChainedTable.lookup_of_hash place] at inChain
  obtain ⟨chain, visited⟩ := ChainedTable.visit_of_find found inChain
  obtain ⟨node', present', answered, mapped⟩ := ChainedTable.visit_lookup wf keeps place visited
  have same : node' = node := Option.some.inj (present'.symm.trans present)
  subst same
  exact ⟨chain, visited, ChainedTable.visit_wellFormed wf keeps visited, mapped⟩

theorem visitKey_none (place : bucketOf key = some index) (absent : ht.lookup key = none) :
    visitKey key found (ht.table index) = none := by
  rw [HashTable.lookup, ChainedTable.lookup_of_hash place] at absent
  exact ChainedTable.visit_eq_none.mpr absent

end Visit

/-! ### Writing and deleting -/

/-- **`write_pair` over a present key** notifies its subscribers and replaces its value. -/
theorem writePair_present {ht : HashTable} (wf : ht.WellFormed) (key : Key) (value : CStr)
    {node : KeyNode} (present : ht.lookup key.1 = some node) :
    ∃ table, writePair ht key.1 value =
        .ok (0, table, notifySubscribers node.subscribersFds key.1 value) ∧
      table.WellFormed ∧
      table.lookup = Function.update ht.lookup key.1 (some { node with value := value }) := by
  obtain ⟨index, access, place⟩ := bucket_of_startsAlnum key.2
  obtain ⟨chain, visited, kept, mapped⟩ := visitKey_some (KeyNode.overwrite key.1 value)
    wf place (fun node stays same => by cases same; rfl) present
  refine ⟨_, ?_, kept, mapped⟩
  simp only [writePair, access, visited, bind, Except.bind, pure, Except.pure]
  rfl

/-- **`write_pair` of an absent key** makes a node without subscribers. -/
theorem writePair_absent {ht : HashTable} (wf : ht.WellFormed) (key : Key) (value : CStr)
    (absent : ht.lookup key.1 = none) :
    ∃ table, writePair ht key.1 value = .ok (0, table, []) ∧ table.WellFormed ∧
      table.lookup = Function.update ht.lookup key.1 (some ⟨key.1, value, Slots.empty⟩) := by
  obtain ⟨index, access, place⟩ := bucket_of_startsAlnum key.2
  let node : KeyNode := ⟨key.1, value, Slots.empty⟩
  refine ⟨ht.setChain index (node :: ht.table index), ?_,
    ChainedTable.insert_wellFormed wf node place absent,
    ChainedTable.insert_lookup node place⟩
  simp only [writePair, access, visitKey_none place absent, bind, Except.bind, pure, Except.pure]
  rfl

/-- **`delete_pair` of a present key** notifies its subscribers and removes it. -/
theorem deletePair_present {ht : HashTable} (wf : ht.WellFormed) (key : Key) {node : KeyNode}
    (present : ht.lookup key.1 = some node) :
    ∃ table, deletePair ht key.1 =
        .ok (0, table, notifySubscribers node.subscribersFds key.1 deletedText) ∧
      table.WellFormed ∧ table.lookup = Function.update ht.lookup key.1 none := by
  obtain ⟨index, access, place⟩ := bucket_of_startsAlnum key.2
  obtain ⟨chain, visited, kept, mapped⟩ := visitKey_some (KeyNode.unlink key.1)
    wf place (fun node stays same => by cases same) present
  refine ⟨_, ?_, kept, mapped⟩
  simp only [deletePair, access, visited, bind, Except.bind, pure, Except.pure]
  rfl

/-- `delete_pair` of an absent key answers `1` and does nothing. -/
theorem deletePair_absent {ht : HashTable} (key : Key) (absent : ht.lookup key.1 = none) :
    deletePair ht key.1 = .ok (1, ht, []) := by
  obtain ⟨index, access, place⟩ := bucket_of_startsAlnum key.2
  simp only [deletePair, access, visitKey_none place absent, bind, Except.bind, pure, Except.pure]

/-! ### Subscriptions -/

/-- The node after one slot was exchanged, if a slot held the old descriptor. -/
def KeyNode.exchange (node : KeyNode) (old new : Fd) : KeyNode :=
  match node.subscribersFds.exchange old new with
  | some slots => { node with subscribersFds := slots }
  | none => node

@[simp] theorem KeyNode.exchange_key (node : KeyNode) (old new : Fd) :
    (node.exchange old new).key = node.key := by
  unfold KeyNode.exchange
  split <;> rfl

@[simp] theorem KeyNode.exchange_value (node : KeyNode) (old new : Fd) :
    (node.exchange old new).value = node.value := by
  unfold KeyNode.exchange
  split <;> rfl

theorem KeyNode.addSubscriber_eq (fd : Fd) (node : KeyNode) :
    node.addSubscriber fd =
      (if 0 ∈ node.subscribersFds.fds then 0 else -1, some (node.exchange 0 fd)) := by
  unfold KeyNode.addSubscriber KeyNode.exchange Slots.exchange
  split_ifs <;> rfl

theorem KeyNode.removeSubscriber_eq (fd : Fd) (node : KeyNode) :
    node.removeSubscriber fd =
      (if fd ∈ node.subscribersFds.fds then 0 else 1, some (node.exchange fd 0)) := by
  unfold KeyNode.removeSubscriber KeyNode.exchange Slots.exchange
  split_ifs <;> rfl

/-- **`write_subscription` on a present key** fills the first empty slot, if there is one. -/
theorem writeSubscription_present {ht : HashTable} (wf : ht.WellFormed) (key : Key) (fd : Fd)
    {node : KeyNode} (present : ht.lookup key.1 = some node) :
    ∃ table, writeSubscription ht key.1 fd =
        .ok (if 0 ∈ node.subscribersFds.fds then 0 else -1, table) ∧
      table.WellFormed ∧
      table.lookup = Function.update ht.lookup key.1 (some (node.exchange 0 fd)) := by
  obtain ⟨index, access, place⟩ := bucket_of_startsAlnum key.2
  obtain ⟨chain, visited, kept, mapped⟩ := visitKey_some (KeyNode.addSubscriber fd)
    wf place (fun node stays same => by
      rw [KeyNode.addSubscriber_eq] at same
      cases same
      exact node.exchange_key 0 fd) present
  rw [KeyNode.addSubscriber_eq] at visited mapped
  refine ⟨_, ?_, kept, mapped⟩
  simp only [writeSubscription, access, visited, bind, Except.bind, pure, Except.pure]

/-- `write_subscription` of an absent key answers `1` and does nothing. -/
theorem writeSubscription_absent {ht : HashTable} (key : Key) (fd : Fd)
    (absent : ht.lookup key.1 = none) : writeSubscription ht key.1 fd = .ok (1, ht) := by
  obtain ⟨index, access, place⟩ := bucket_of_startsAlnum key.2
  simp only [writeSubscription, access, visitKey_none place absent, bind, Except.bind, pure,
    Except.pure]

/-- **`delete_subscription` on a present key** empties the first slot that holds the descriptor. -/
theorem deleteSubscription_present {ht : HashTable} (wf : ht.WellFormed) (key : Key) (fd : Fd)
    {node : KeyNode} (present : ht.lookup key.1 = some node) :
    ∃ table, deleteSubscription ht key.1 fd =
        .ok (if fd ∈ node.subscribersFds.fds then 0 else 1, table) ∧
      table.WellFormed ∧
      table.lookup = Function.update ht.lookup key.1 (some (node.exchange fd 0)) := by
  obtain ⟨index, access, place⟩ := bucket_of_startsAlnum key.2
  obtain ⟨chain, visited, kept, mapped⟩ := visitKey_some (KeyNode.removeSubscriber fd)
    wf place (fun node stays same => by
      rw [KeyNode.removeSubscriber_eq] at same
      cases same
      exact node.exchange_key fd 0) present
  rw [KeyNode.removeSubscriber_eq] at visited mapped
  refine ⟨_, ?_, kept, mapped⟩
  simp only [deleteSubscription, access, visited, bind, Except.bind, pure, Except.pure]

/-- `delete_subscription` of an absent key answers `1` and does nothing. -/
theorem deleteSubscription_absent {ht : HashTable} (key : Key) (fd : Fd)
    (absent : ht.lookup key.1 = none) : deleteSubscription ht key.1 fd = .ok (1, ht) := by
  obtain ⟨index, access, place⟩ := bucket_of_startsAlnum key.2
  simp only [deleteSubscription, access, visitKey_none place absent, bind, Except.bind, pure,
    Except.pure]

/-! ### The sweeps -/

theorem disconnect_wellFormed {ht : HashTable} (wf : ht.WellFormed) (fd : Fd) :
    (disconnect fd ht).2.WellFormed :=
  ChainedTable.mapNodes_wellFormed wf (KeyNode.dropSubscriber fd) fun _ => rfl

/-- `disconnect` empties the descriptor's slots of every node. -/
theorem disconnect_lookup (ht : HashTable) (fd : Fd) (key : CStr) :
    (disconnect fd ht).2.lookup key = (ht.lookup key).map (KeyNode.dropSubscriber fd) :=
  ChainedTable.mapNodes_lookup (KeyNode.dropSubscriber fd) (fun _ => rfl) key

theorem disconnectAll_wellFormed {ht : HashTable} (wf : ht.WellFormed) :
    (disconnectAll ht).2.WellFormed :=
  ChainedTable.mapNodes_wellFormed wf KeyNode.dropSubscribers fun _ => rfl

/-- `disconnect_all` empties every slot of every node. -/
theorem disconnectAll_lookup (ht : HashTable) (key : CStr) :
    (disconnectAll ht).2.lookup key = (ht.lookup key).map KeyNode.dropSubscribers :=
  ChainedTable.mapNodes_lookup KeyNode.dropSubscribers (fun _ => rfl) key

end Kvs.Server
