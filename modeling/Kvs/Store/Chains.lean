/-
**What a call does to the chains.**

`Acts ht op outcome` lists, one case for each, all that a call can do to a table: make a node at
the head of its bucket, rewrite or unlink the first node with its key, sweep over all nodes, or
nothing. It looks at the chains themselves, so it holds of every table, well formed or not;
`exec_acts` says that a call on a key with a bucket always ends, and in one of these ways.
-/

import Kvs.Store.Run

namespace Kvs.Server

/-- The first node with the key stands between these parts of its chain. -/
structure HashTable.FoundAt (ht : HashTable) (key : CStr) (index : Fin tableSize)
    (before : List KeyNode) (node : KeyNode) (after : List KeyNode) : Prop where
  place : bucketOf key = some index
  chain : ht.table index = before ++ node :: after
  others : ∀ other ∈ before, other.key ≠ key
  same : node.key = key

theorem HashTable.FoundAt.mem {ht : HashTable} {key : CStr} {index : Fin tableSize}
    {before after : List KeyNode} {node : KeyNode}
    (found : ht.FoundAt key index before node after) : node ∈ ht.table index := by
  rw [found.chain]
  simp

/-- No node of the key's chain has it. -/
structure HashTable.MissingAt (ht : HashTable) (key : CStr) (index : Fin tableSize) : Prop where
  place : bucketOf key = some index
  others : ∀ other ∈ ht.table index, other.key ≠ key

/-- All that a call can do. -/
inductive Acts (ht : HashTable) : StoreOp → Outcome → Prop where
  | created {key : Key} {index : Fin tableSize} (value : CStr)
      (missing : ht.MissingAt key.1 index) :
      Acts ht (.writePair key value)
        ⟨.code 0, ht.setChain index (⟨key.1, value, Slots.empty⟩ :: ht.table index), []⟩
  | overwritten {key : Key} {index : Fin tableSize} {before after : List KeyNode} {node : KeyNode}
      (value : CStr) (found : ht.FoundAt key.1 index before node after) :
      Acts ht (.writePair key value)
        ⟨.code 0, ht.setChain index (before ++ { node with value := value } :: after),
          notifySubscribers node.subscribersFds key.1 value⟩
  | unlinked {key : Key} {index : Fin tableSize} {before after : List KeyNode} {node : KeyNode}
      (found : ht.FoundAt key.1 index before node after) :
      Acts ht (.deletePair key)
        ⟨.code 0, ht.setChain index (before ++ after),
          notifySubscribers node.subscribersFds key.1 deletedText⟩
  | notUnlinked {key : Key} {index : Fin tableSize} (missing : ht.MissingAt key.1 index) :
      Acts ht (.deletePair key) ⟨.code 1, ht, []⟩
  | read (key : Key) (value : Option CStr) : Acts ht (.readPair key) ⟨.text value, ht, []⟩
  | subscribed {key : Key} {index : Fin tableSize} {before after : List KeyNode} {node : KeyNode}
      (fd : Fd) (found : ht.FoundAt key.1 index before node after) :
      Acts ht (.writeSubscription key fd)
        ⟨.code (if 0 ∈ node.subscribersFds.fds then 0 else -1),
          ht.setChain index (before ++ node.exchange 0 fd :: after), []⟩
  | notSubscribed {key : Key} {index : Fin tableSize} (fd : Fd)
      (missing : ht.MissingAt key.1 index) :
      Acts ht (.writeSubscription key fd) ⟨.code 1, ht, []⟩
  | unsubscribed {key : Key} {index : Fin tableSize} {before after : List KeyNode} {node : KeyNode}
      (fd : Fd) (found : ht.FoundAt key.1 index before node after) :
      Acts ht (.deleteSubscription key fd)
        ⟨.code (if fd ∈ node.subscribersFds.fds then 0 else 1),
          ht.setChain index (before ++ node.exchange fd 0 :: after), []⟩
  | notUnsubscribed {key : Key} {index : Fin tableSize} (fd : Fd)
      (missing : ht.MissingAt key.1 index) :
      Acts ht (.deleteSubscription key fd) ⟨.code 1, ht, []⟩
  | disconnected (fd : Fd) :
      Acts ht (.disconnect fd)
        ⟨.code (Server.disconnect fd ht).1.toNat, (Server.disconnect fd ht).2, []⟩
  | allDisconnected :
      Acts ht .disconnectAll
        ⟨.code (Server.disconnectAll ht).1, (Server.disconnectAll ht).2, []⟩

/-- The walk of a call: past every node, or to the first one with the key. -/
theorem visitKey_cases {ρ : Type} {key : CStr} {index : Fin tableSize}
    (place : bucketOf key = some index) (found : KeyNode → ρ × Option KeyNode) (ht : HashTable) :
    (visitKey key found (ht.table index) = none ∧ ht.MissingAt key index) ∨
      ∃ before node after, ht.FoundAt key index before node after ∧
        visitKey key found (ht.table index) =
          some ((found node).1, before ++ ((found node).2.toList ++ after)) := by
  rcases ChainedTable.visit_cases key found (ht.table index) with
    ⟨fellOff, others⟩ | ⟨before, node, after, chain, others, same, visited⟩
  · exact .inl ⟨fellOff, place, others⟩
  · exact .inr ⟨before, node, after, ⟨place, chain, others, same⟩, visited⟩

/-- **Every call ends, in one of these ways.** -/
theorem exec_acts (op : StoreOp) (ht : HashTable) :
    ∃ outcome, op.exec ht = .ok outcome ∧ Acts ht op outcome := by
  cases op with
  | writePair key value =>
    obtain ⟨index, access, place⟩ := bucket_of_startsAlnum key.2
    rcases visitKey_cases place (KeyNode.overwrite key.1 value) ht with
      ⟨fellOff, missing⟩ | ⟨before, node, after, found, visited⟩
    · refine ⟨_, ?_, .created value missing⟩
      simp only [StoreOp.exec, writePair, access, fellOff, bind, Except.bind]
      rfl
    · refine ⟨_, ?_, .overwritten value found⟩
      simp only [StoreOp.exec, writePair, access, visited, bind, Except.bind]
      rfl
  | deletePair key =>
    obtain ⟨index, access, place⟩ := bucket_of_startsAlnum key.2
    rcases visitKey_cases place (KeyNode.unlink key.1) ht with
      ⟨fellOff, missing⟩ | ⟨before, node, after, found, visited⟩
    · refine ⟨_, ?_, .notUnlinked missing⟩
      simp only [StoreOp.exec, deletePair, access, fellOff, bind, Except.bind]
      rfl
    · refine ⟨_, ?_, .unlinked found⟩
      simp only [StoreOp.exec, deletePair, access, visited, bind, Except.bind]
      rfl
  | readPair key =>
    refine ⟨_, ?_, .read key ((ht.lookup key.1).map KeyNode.value)⟩
    rw [StoreOp.exec, readPair_spec]
    rfl
  | writeSubscription key fd =>
    obtain ⟨index, access, place⟩ := bucket_of_startsAlnum key.2
    rcases visitKey_cases place (KeyNode.addSubscriber fd) ht with
      ⟨fellOff, missing⟩ | ⟨before, node, after, found, visited⟩
    · refine ⟨_, ?_, .notSubscribed fd missing⟩
      simp only [StoreOp.exec, writeSubscription, access, fellOff, bind, Except.bind]
      rfl
    · refine ⟨_, ?_, .subscribed fd found⟩
      rw [KeyNode.addSubscriber_eq] at visited
      simp only [StoreOp.exec, writeSubscription, access, visited, bind, Except.bind]
      rfl
  | deleteSubscription key fd =>
    obtain ⟨index, access, place⟩ := bucket_of_startsAlnum key.2
    rcases visitKey_cases place (KeyNode.removeSubscriber fd) ht with
      ⟨fellOff, missing⟩ | ⟨before, node, after, found, visited⟩
    · refine ⟨_, ?_, .notUnsubscribed fd missing⟩
      simp only [StoreOp.exec, deleteSubscription, access, fellOff, bind, Except.bind]
      rfl
    · refine ⟨_, ?_, .unsubscribed fd found⟩
      rw [KeyNode.removeSubscriber_eq] at visited
      simp only [StoreOp.exec, deleteSubscription, access, visited, bind, Except.bind]
      rfl
  | disconnect fd => exact ⟨_, rfl, .disconnected fd⟩
  | disconnectAll => exact ⟨_, rfl, .allDisconnected⟩

/-- What a call that was made did. -/
theorem acts_of_exec {op : StoreOp} {ht : HashTable} {outcome : Outcome}
    (executed : op.exec ht = .ok outcome) : Acts ht op outcome := by
  obtain ⟨outcome', executed', acts⟩ := exec_acts op ht
  cases executed.symm.trans executed'
  exact acts

end Kvs.Server
