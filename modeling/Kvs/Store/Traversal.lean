/-
**The order of a listing.**

`kvs_show` and the backup child walk `HashTable.nodes`. A new node goes to the front of its bucket
and no call moves a node, so the walk has the buckets in order and, inside a bucket, the keys
created last first. `CreatedAt ops key place` reads off the calls alone where the node a key has now
was made: the call at `place` wrote the key, which was absent then, and none after it deleted the
key. `Lists ops nodes` is the specification of a walk.

`Acts.keysStep` is the step lemma: a call puts a key in front of its bucket, takes one out, or
leaves the keys of all chains as they are.
-/

import Kvs.Store.Chains
import Kvs.Store.Refinement

namespace Kvs.Server

/-! ### The specification -/

/-- The call writes the key. -/
def StoreOp.writes (key : Key) (op : StoreOp) : Prop := ∃ value, op = .writePair key value

/-- The call deletes the key. -/
def StoreOp.deletes (key : Key) (op : StoreOp) : Prop := op = .deletePair key

/-- The call at this place made the node the key has after the calls. -/
structure CreatedAt (ops : List StoreOp) (key : Key) (place : ℕ) : Prop where
  absent : ¬ Present (ops.take place) key
  opened : EventLog.OpenedAt (StoreOp.writes key) (StoreOp.deletes key) ops place

/-- The first key was created after the second. -/
def CreatedAfter (ops : List StoreOp) (first second : CStr) : Prop :=
  ∃ (key key' : Key) (later earlier : ℕ), key.1 = first ∧ key'.1 = second ∧
    CreatedAt ops key later ∧ CreatedAt ops key' earlier ∧ earlier < later

/-- The first key is in an earlier bucket, or in the same one and created later. -/
def ListedBefore (ops : List StoreOp) (first second : CStr) : Prop :=
  hash first < hash second ∨ (hash first = hash second ∧ CreatedAfter ops first second)

/-- The nodes list what the calls left: every key that is present once, with its last value, and no
other; bucket by bucket, the key created last first. -/
structure Lists (ops : List StoreOp) (nodes : List KeyNode) : Prop where
  pairs : ∀ key value, (∃ node ∈ nodes, node.key = key ∧ node.value = value) ↔
    ∃ written : Key, written.1 = key ∧ LastWrite ops written value
  once : (nodes.map KeyNode.key).Nodup
  order : (nodes.map KeyNode.key).Pairwise (ListedBefore ops)

/-! ### Creations -/

/-- A key is present when it was written and not deleted since. -/
theorem present_iff_since (ops : List StoreOp) (key : Key) :
    Present ops key ↔ EventLog.Since (StoreOp.writes key) (StoreOp.deletes key) ops := by
  induction ops using List.reverseRecOn with
  | nil =>
    constructor
    · rintro ⟨value, written⟩
      exact absurd written EventLog.not_since_nil
    · exact fun written => absurd written EventLog.not_since_nil
  | append_singleton ops op ih =>
    rw [EventLog.since_snoc, ← ih, ← not_iff_not, ← lastValue_eq_none_iff, lastValue_snoc]
    by_cases touched : op.touches key
    · obtain ⟨value, rfl⟩ | rfl := touches_cases touched
      · simp [StoreOp.effect, StoreOp.writes]
      · simp [StoreOp.effect, StoreOp.writes, StoreOp.deletes]
    · have unwritten : ¬ op.writes key := by
        rintro ⟨value, rfl⟩
        exact touched rfl
      have undeleted : ¬ op.deletes key := by
        rintro rfl
        exact touched rfl
      rw [effect_of_not_touches touched, lastValue_eq_none_iff]
      simp [unwritten, undeleted]

theorem CreatedAt.snoc {ops : List StoreOp} {op : StoreOp} {key : Key} {place : ℕ}
    (created : CreatedAt ops key place) (stays : ¬ op.deletes key) :
    CreatedAt (ops ++ [op]) key place := by
  refine ⟨?_, created.opened.snoc stays⟩
  rw [List.take_append_of_le_length created.opened.lt_length.le]
  exact created.absent

/-- The write of an absent key creates it. -/
theorem createdAt_last {ops : List StoreOp} {key : Key} (value : CStr)
    (absent : ¬ Present ops key) : CreatedAt (ops ++ [.writePair key value]) key ops.length := by
  refine ⟨?_, EventLog.openedAt_last ⟨value, rfl⟩⟩
  rwa [List.take_left]

/-- A key has one creation: after it the key is present. -/
theorem CreatedAt.not_lt {ops : List StoreOp} {key : Key} {earlier later : ℕ}
    (first : CreatedAt ops key earlier) (second : CreatedAt ops key later) : ¬ earlier < later := by
  intro before
  exact second.absent ((present_iff_since _ key).mpr (first.opened.take before).since)

theorem ListedBefore.ne {ops : List StoreOp} {first second : CStr}
    (listed : ListedBefore ops first second) : first ≠ second := by
  rintro rfl
  rcases listed with less | ⟨_, key, key', later, earlier, same, same', created, created', before⟩
  · exact lt_irrefl _ less
  · obtain rfl : key' = key := Subtype.ext (same'.trans same.symm)
    exact created'.not_lt created before

/-! ### The keys of the chains -/

/-- The keys along a chain. -/
def HashTable.chainKeys (ht : HashTable) (index : Fin tableSize) : List CStr :=
  (ht.table index).map KeyNode.key

theorem HashTable.nodes_keys (ht : HashTable) :
    ht.nodes.map KeyNode.key = (List.finRange tableSize).flatMap ht.chainKeys := by
  rw [HashTable.nodes, List.map_flatMap]
  rfl

theorem chainKeys_setChain (ht : HashTable) (index : Fin tableSize) (chain : List KeyNode) :
    (ht.setChain index chain).chainKeys =
      Function.update ht.chainKeys index (chain.map KeyNode.key) := by
  funext other
  show (Function.update ht.table index chain other).map KeyNode.key = _
  by_cases same : other = index
  · subst same
    rw [Function.update_self, Function.update_self]
  · rw [Function.update_of_ne same, Function.update_of_ne same]
    rfl

/-- A found node replaced by one with its key leaves every chain's keys. -/
theorem HashTable.FoundAt.chainKeys_replaced {ht : HashTable} {key : CStr} {index : Fin tableSize}
    {before after : List KeyNode} {node kept : KeyNode}
    (found : ht.FoundAt key index before node after) (same : kept.key = node.key) :
    (ht.setChain index (before ++ kept :: after)).chainKeys = ht.chainKeys := by
  rw [chainKeys_setChain, Function.update_eq_self_iff, HashTable.chainKeys, found.chain]
  simp [same]

/-- A found node taken out takes its key out. -/
theorem HashTable.FoundAt.chainKeys_unlinked {ht : HashTable} {key : CStr} {index : Fin tableSize}
    {before after : List KeyNode} {node : KeyNode}
    (found : ht.FoundAt key index before node after) :
    (ht.setChain index (before ++ after)).chainKeys =
      Function.update ht.chainKeys index ((ht.chainKeys index).erase key) := by
  have outside : key ∉ before.map KeyNode.key := by
    intro member
    obtain ⟨other, inside, same⟩ := List.mem_map.mp member
    exact found.others other inside same
  rw [chainKeys_setChain, HashTable.chainKeys, found.chain, List.map_append, List.map_append,
    List.map_cons, found.same, List.erase_append_right _ outside, List.erase_cons_head]

/-- What a call can do to the keys of the chains: put an absent one in front of its bucket, take one
out of it, or nothing. -/
inductive KeysStep (ht : HashTable) (op : StoreOp) (table : HashTable) : Prop where
  | created (key : Key) (value : CStr) (index : Fin tableSize) (call : op = .writePair key value)
      (missing : ht.MissingAt key.1 index)
      (keys : table.chainKeys = Function.update ht.chainKeys index (key.1 :: ht.chainKeys index))
  | unlinked (key : Key) (index : Fin tableSize) (call : op = .deletePair key)
      (place : bucketOf key.1 = some index)
      (keys : table.chainKeys = Function.update ht.chainKeys index
        ((ht.chainKeys index).erase key.1))
  | kept (keys : table.chainKeys = ht.chainKeys)
      (stays : ∀ key, op.deletes key → ∃ index, ht.MissingAt key.1 index)

theorem chainKeys_mapNodes (ht : HashTable) (rewrite : KeyNode → KeyNode)
    (keeps : ∀ node, (rewrite node).key = node.key) :
    (ht.mapNodes rewrite).chainKeys = ht.chainKeys := by
  funext index
  show ((ht.table index).map rewrite).map KeyNode.key = _
  rw [List.map_map]
  exact List.map_congr_left fun node _ => keeps node

/-- **The step lemma.** -/
theorem Acts.keysStep {ht : HashTable} {op : StoreOp} {outcome : Outcome}
    (acts : Acts ht op outcome) : KeysStep ht op outcome.table := by
  cases acts with
  | @created key index value missing =>
    exact .created key value index rfl missing (chainKeys_setChain ht index _)
  | overwritten value found =>
    exact .kept (found.chainKeys_replaced rfl) fun _ same => by cases same
  | @unlinked key index before after node found =>
    exact .unlinked key index rfl found.place found.chainKeys_unlinked
  | @notUnlinked key index missing =>
    exact .kept rfl fun _ same => by
      cases same
      exact ⟨index, missing⟩
  | read key value => exact .kept rfl fun _ same => by cases same
  | subscribed fd found =>
    exact .kept (found.chainKeys_replaced (KeyNode.exchange_key _ _ _)) fun _ same => by cases same
  | notSubscribed fd missing => exact .kept rfl fun _ same => by cases same
  | unsubscribed fd found =>
    exact .kept (found.chainKeys_replaced (KeyNode.exchange_key _ _ _)) fun _ same => by cases same
  | notUnsubscribed fd missing => exact .kept rfl fun _ same => by cases same
  | disconnected fd =>
    exact .kept (chainKeys_mapNodes ht _ fun _ => rfl) fun _ same => by cases same
  | allDisconnected =>
    exact .kept (chainKeys_mapNodes ht _ fun _ => rfl) fun _ same => by cases same

/-! ### Chains in order of creation -/

theorem hash_of_place {key : CStr} {index : Fin tableSize} (place : bucketOf key = some index) :
    hash key = (index : ℤ) := by
  unfold bucketOf HashTable.bucket at place
  split at place
  · rename_i inside
    obtain rfl := Option.some.inj place
    exact (Int.toNat_of_nonneg inside.1).symm
  · cases place

theorem place_of_mem_chainKeys {ht : HashTable} (wf : ht.WellFormed) {key : CStr}
    {index : Fin tableSize} (member : key ∈ ht.chainKeys index) : bucketOf key = some index := by
  obtain ⟨node, inside, rfl⟩ := List.mem_map.mp member
  exact wf.placed index node inside

/-- A key missing from its own chain is in no other. -/
theorem HashTable.MissingAt.not_mem {ht : HashTable} (wf : ht.WellFormed) {key : CStr}
    {index : Fin tableSize} (missing : ht.MissingAt key index) (other : Fin tableSize) :
    key ∉ ht.chainKeys other := by
  intro member
  obtain rfl := Option.some.inj ((place_of_mem_chainKeys wf member).symm.trans missing.place)
  obtain ⟨node, inside, same⟩ := List.mem_map.mp member
  exact missing.others node inside same

theorem HashTable.MissingAt.valueAt {ht : HashTable} {key : Key} {index : Fin tableSize}
    (missing : ht.MissingAt key.1 index) : ht.valueAt key = none := by
  rw [HashTable.valueAt, HashTable.lookup, ChainedTable.lookup_of_hash missing.place,
    ChainedTable.find_eq_none.mpr missing.others, Option.map_none]

/-- Every key of the chain has been created, the first one last. -/
structure NewestFirst (ops : List StoreOp) (keys : List CStr) : Prop where
  created : ∀ key ∈ keys, ∃ (written : Key) (place : ℕ), written.1 = key ∧
    CreatedAt ops written place
  order : keys.Pairwise (CreatedAfter ops)

theorem CreatedAfter.snoc {ops : List StoreOp} {op : StoreOp} {first second : CStr}
    (after : CreatedAfter ops first second)
    (stays : ∀ key : Key, key.1 = first ∨ key.1 = second → ¬ op.deletes key) :
    CreatedAfter (ops ++ [op]) first second := by
  obtain ⟨key, key', later, earlier, rfl, rfl, created, created', before⟩ := after
  exact ⟨key, key', later, earlier, rfl, rfl, created.snoc (stays key (.inl rfl)),
    created'.snoc (stays key' (.inr rfl)), before⟩

/-- A call that deletes none of the keys. -/
theorem NewestFirst.snoc {ops : List StoreOp} {op : StoreOp} {keys : List CStr}
    (newest : NewestFirst ops keys) (stays : ∀ key : Key, key.1 ∈ keys → ¬ op.deletes key) :
    NewestFirst (ops ++ [op]) keys := by
  refine ⟨fun key member => ?_, ?_⟩
  · obtain ⟨written, place, rfl, created⟩ := newest.created key member
    exact ⟨written, place, rfl, created.snoc (stays written member)⟩
  · refine newest.order.imp_of_mem fun inside inside' after => after.snoc fun key same => ?_
    rcases same with rfl | rfl
    · exact stays key inside
    · exact stays key inside'

theorem NewestFirst.sublist {ops : List StoreOp} {keys keys' : List CStr}
    (newest : NewestFirst ops keys) (part : keys'.Sublist keys) : NewestFirst ops keys' :=
  ⟨fun key member => newest.created key (part.subset member), newest.order.sublist part⟩

/-- The write of an absent key puts it before all others. -/
theorem NewestFirst.cons {ops : List StoreOp} {keys : List CStr} (newest : NewestFirst ops keys)
    {key : Key} (value : CStr) (absent : ¬ Present ops key) :
    NewestFirst (ops ++ [.writePair key value]) (key.1 :: keys) := by
  have kept : NewestFirst (ops ++ [.writePair key value]) keys :=
    newest.snoc fun _ _ same => by cases same
  have created := createdAt_last value absent
  refine ⟨List.forall_mem_cons.mpr ⟨⟨key, ops.length, rfl, created⟩, kept.created⟩,
    List.pairwise_cons.mpr ⟨fun other member => ?_, kept.order⟩⟩
  obtain ⟨written, place, rfl, earlier⟩ := newest.created other member
  exact ⟨key, written, ops.length, place, rfl, rfl, created,
    earlier.snoc (fun same => by cases same), earlier.opened.lt_length⟩

/-- A call keeps every chain in order. -/
theorem newestFirst_step {ops : List StoreOp} {op : StoreOp} {ht : HashTable} {outcome : Outcome}
    (wf : ht.WellFormed) (values : ∀ key, ht.valueAt key = lastValue ops key)
    (newest : ∀ index, NewestFirst ops (ht.chainKeys index))
    (executed : op.exec ht = .ok outcome) (index : Fin tableSize) :
    NewestFirst (ops ++ [op]) (outcome.table.chainKeys index) := by
  rcases (acts_of_exec executed).keysStep with
    ⟨key, value, home, rfl, missing, keys⟩ | ⟨key, home, rfl, place, keys⟩ | ⟨keys, stays⟩
  · have absent : ¬ Present ops key := by
      rw [← lastValue_eq_none_iff, ← values]
      exact missing.valueAt
    by_cases same : index = home
    · subst same
      rw [keys, Function.update_self]
      exact (newest index).cons value absent
    · rw [keys, Function.update_of_ne same]
      exact (newest index).snoc fun _ _ same => by cases same
  · by_cases same : index = home
    · subst same
      rw [keys, Function.update_self]
      refine ((newest index).sublist List.erase_sublist).snoc fun other member deletes => ?_
      cases deletes
      exact (List.Nodup.not_mem_erase (wf.nodup index)) member
    · rw [keys, Function.update_of_ne same]
      refine (newest index).snoc fun other member deletes => ?_
      cases deletes
      exact same (Option.some.inj ((place_of_mem_chainKeys wf member).symm.trans place))
  · rw [keys]
    refine (newest index).snoc fun key member deletes => ?_
    obtain ⟨home, missing⟩ := stays key deletes
    exact missing.not_mem wf index member

/-- **The run lemma.** -/
theorem runOps_newestFirst (ops : List StoreOp) :
    ∃ ht, runOps ops createHashTable = .ok ht ∧ ht.WellFormed ∧
      (∀ key, ht.valueAt key = lastValue ops key) ∧
      ∀ index, NewestFirst ops (ht.chainKeys index) := by
  induction ops using List.reverseRecOn with
  | nil =>
    obtain ⟨ht, ran, wf, values⟩ := runOps_values []
    cases ran
    refine ⟨createHashTable, rfl, wf, values, fun index => ⟨?_, List.Pairwise.nil⟩⟩
    exact fun _ member => absurd member List.not_mem_nil
  | append_singleton ops op ih =>
    obtain ⟨middle, ran, wf, values, newest⟩ := ih
    obtain ⟨outcome, called, kept, effects⟩ := exec_total wf op
    refine ⟨outcome.table, ?_, kept, fun key => ?_, newestFirst_step wf values newest called⟩
    · rw [runOps_append, ran]
      show (op.exec middle).bind _ = _
      rw [called]
      rfl
    · rw [effects, values, lastValue_snoc]

/-! ### The walk -/

/-- The walk over a table in this order lists what the calls left. -/
theorem lists_of_newestFirst {ops : List StoreOp} {ht : HashTable} (wf : ht.WellFormed)
    (values : ∀ key, ht.valueAt key = lastValue ops key)
    (newest : ∀ index, NewestFirst ops (ht.chainKeys index)) : Lists ops ht.nodes := by
  have order : (ht.nodes.map KeyNode.key).Pairwise (ListedBefore ops) := by
    rw [ht.nodes_keys, List.pairwise_flatMap]
    refine ⟨fun index _ => ?_, (List.pairwise_lt_finRange tableSize).imp ?_⟩
    · refine (newest index).order.imp_of_mem fun inside inside' after => .inr ⟨?_, after⟩
      rw [hash_of_place (place_of_mem_chainKeys wf inside),
        hash_of_place (place_of_mem_chainKeys wf inside')]
    · intro index index' less key inside key' inside'
      left
      rw [hash_of_place (place_of_mem_chainKeys wf inside),
        hash_of_place (place_of_mem_chainKeys wf inside')]
      exact_mod_cast less
  refine ⟨fun key value => ?_, order.imp ListedBefore.ne, order⟩
  constructor
  · rintro ⟨node, member, rfl, rfl⟩
    obtain ⟨index, _, inside⟩ := List.mem_flatMap.mp member
    obtain ⟨written, _, same, _⟩ :=
      (newest index).created node.key (List.mem_map_of_mem inside)
    refine ⟨written, same, (lastValue_eq_some_iff ops written _).mp ?_⟩
    rw [← values, HashTable.valueAt,
      (HashTable.lookup_eq_some_iff wf).mpr ⟨⟨index, inside⟩, same.symm⟩, Option.map_some]
  · rintro ⟨written, rfl, last⟩
    have value := (values written).trans ((lastValue_eq_some_iff ops written value).mpr last)
    obtain ⟨node, present, same⟩ := Option.map_eq_some_iff.mp value
    obtain ⟨⟨index, inside⟩, key⟩ := (HashTable.lookup_eq_some_iff wf).mp present
    exact ⟨node, List.mem_flatMap.mpr ⟨index, List.mem_finRange index, inside⟩, key, same⟩

/-- A call that creates no key and deletes none moves none. -/
theorem nodes_keys_kept {ops : List StoreOp} {ht : HashTable} {op : StoreOp} {outcome : Outcome}
    (values : ∀ key, ht.valueAt key = lastValue ops key) (called : op.exec ht = .ok outcome)
    (overwrites : ∀ key, op.writes key → Present ops key) (undeleted : ∀ key, ¬ op.deletes key) :
    outcome.table.nodes.map KeyNode.key = ht.nodes.map KeyNode.key := by
  obtain ⟨outcome', called', acts⟩ := exec_acts op ht
  cases called.symm.trans called'
  rw [HashTable.nodes_keys, HashTable.nodes_keys]
  rcases acts.keysStep with
    ⟨key, value, home, rfl, missing, -⟩ | ⟨key, home, rfl, -, -⟩ | ⟨keys, -⟩
  · have absent : lastValue ops key = none := by
      rw [← values]
      exact missing.valueAt
    exact absurd (overwrites key ⟨value, rfl⟩) ((lastValue_eq_none_iff ops key).mp absent)
  · exact absurd rfl (undeleted key)
  · rw [keys]

/-- **A key deleted and written again** is in front of its bucket. -/
theorem rewritten_in_front {ht : HashTable} (wf : ht.WellFormed) {key : Key}
    (present : ht.valueAt key ≠ none) (value : CStr) :
    ∃ table index, runOps [.deletePair key, .writePair key value] ht = .ok table ∧
      bucketOf key.1 = some index ∧
      table.chainKeys = Function.update ht.chainKeys index
        (key.1 :: (ht.chainKeys index).erase key.1) := by
  obtain ⟨outcome, called, acts⟩ := exec_acts (.deletePair key) ht
  obtain ⟨outcome', called', acts'⟩ := exec_acts (.writePair key value) outcome.table
  have ran : runOps [.deletePair key, .writePair key value] ht = .ok outcome'.table := by
    show (StoreOp.exec _ _).bind _ = _
    rw [called]
    show (StoreOp.exec _ _).bind _ = _
    rw [called']
    rfl
  cases acts with
  | notUnlinked missing => exact absurd missing.valueAt present
  | @unlinked _ index before after node found =>
    have keys := found.chainKeys_unlinked
    cases acts' with
    | @created _ home _ missing =>
      obtain rfl := Option.some.inj (found.place.symm.trans missing.place)
      refine ⟨_, index, ran, found.place, ?_⟩
      rw [chainKeys_setChain, keys, Function.update_idem, List.map_cons, ← HashTable.chainKeys,
        keys, Function.update_self]
    | @overwritten _ home _ _ _ _ found' =>
      obtain rfl := Option.some.inj (found.place.symm.trans found'.place)
      have member := List.mem_map_of_mem (f := KeyNode.key) found'.mem
      rw [← HashTable.chainKeys, keys, Function.update_self, found'.same] at member
      exact absurd member (List.Nodup.not_mem_erase (wf.nodup index))

/-- **The walk of `kvs_show` and `kvs_backup` lists the map exactly**: the calls end and the walk
lists what they left, an overwrite or a subscription call among them moved no key, and a key deleted
and written again came to the front of its bucket. -/
structure ListsMap (ops : List StoreOp) : Prop where
  lists : ∃ ht, runCalls ops createHashTable = .ok ht ∧ Lists ops ht.nodes
  stays : ∀ earlier op later, ops = earlier ++ op :: later →
    (∀ key, op.writes key → Present earlier key) → (∀ key, ¬ op.deletes key) →
    ∃ before outcome, runCalls earlier createHashTable = .ok before ∧
      op.call before = .ok outcome ∧
      outcome.table.nodes.map KeyNode.key = before.nodes.map KeyNode.key
  front : ∀ earlier key value later,
    ops = earlier ++ .deletePair key :: .writePair key value :: later → Present earlier key →
    ∃ before after index, runCalls earlier createHashTable = .ok before ∧
      runCalls [.deletePair key, .writePair key value] before = .ok after ∧
      bucketOf key.1 = some index ∧
      after.chainKeys = Function.update before.chainKeys index
        (key.1 :: (before.chainKeys index).erase key.1)

/-- **The walk lists the map as long as no frame overruns `str`**, and no longer. -/
theorem traversal_lists_map (ops : List StoreOp) : ListsMap ops ↔ FramesFit ops := by
  constructor
  · intro lists
    obtain ⟨ht, ran, _⟩ := lists.lists
    exact framesFit_of_runCalls ran
  · intro fit
    refine ⟨?_, ?_, ?_⟩
    · obtain ⟨ht, ran, wf, values, newest⟩ := runOps_newestFirst ops
      exact ⟨ht, (runCalls_of_framesFit fit).trans ran, lists_of_newestFirst wf values newest⟩
    · rintro earlier op later rfl overwrites undeleted
      obtain ⟨before, ran, wf, values⟩ := runOps_values earlier
      obtain ⟨outcome, called, _⟩ := exec_total wf op
      have reached := (runCalls_of_framesFit fit.of_append).trans ran
      have fits := fit earlier op later rfl before reached
      exact ⟨before, outcome, reached, ((call_eq wf op).2 fits).trans called,
        nodes_keys_kept values called overwrites undeleted⟩
    · rintro earlier key value later rfl present
      obtain ⟨before, ran, wf, values⟩ := runOps_values earlier
      have found : before.valueAt key ≠ none := by
        rw [values]
        exact fun missing => (lastValue_eq_none_iff earlier key).mp missing present
      obtain ⟨after, index, moved, place, keys⟩ := rewritten_in_front wf found value
      rw [List.append_cons, List.append_cons] at fit
      have ended := runCalls_of_framesFit fit.of_append
      have reached := (runCalls_of_framesFit fit.of_append.of_append.of_append).trans ran
      rw [List.append_assoc, runCalls_append, runOps_append, reached, ran] at ended
      exact ⟨before, after, index, reached, ended.trans moved, place, keys⟩

/-- Nothing is listed behind a value too long for its frame. -/
theorem overlongWrite_not_lists : ¬ ∀ ops, ListsMap ops := by
  intro lists
  obtain ⟨ht, ran, _⟩ := (lists (subscribedA ++ [.writePair keyA overlongValue])).lists
  have ended := overlongWrite_overruns
  rw [runCalls_append] at ran
  obtain ⟨before, reached, called⟩ := bind_ok_inv ran
  obtain ⟨outcome, called, _⟩ := bind_ok_inv called
  rw [reached, Except.bind, called] at ended
  cases ended

end Kvs.Server
