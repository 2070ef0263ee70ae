/-
**Disconnecting one client after another.**

`disconnectEach` makes a `disconnect` for every descriptor of a list. `HashTable.Named` says that
the list has every descriptor held in some slot, and `disconnect_all` is the shortcut for such a
list.

`HashTable.Dropped` is the frame of one `disconnect`: node for node the chains stay as they are,
but for the slots of that descriptor, which are empty afterwards. `HashTable.Free` says that no slot
holds the descriptor; no call but a subscription with it ends that, and while it holds nothing is
sent there.
-/

import Kvs.Store.Chains
import Kvs.Store.Notification
import Kvs.Store.Slots

namespace Kvs.Server

/-! ### The list form -/

/-- `disconnect` each descriptor in turn. -/
def disconnectEach (fds : List Fd) (table : HashTable) : HashTable :=
  fds.foldl (fun table fd => (disconnect fd table).2) table

/-- Every descriptor held in a slot is in the list. -/
def HashTable.Named (ht : HashTable) (fds : List Fd) : Prop :=
  ∀ node ∈ ht.nodes, ∀ fd ∈ node.subscribersFds.fds, fd ≠ 0 → fd ∈ fds

theorem HashTable.mem_nodes {ht : HashTable} {node : KeyNode} :
    node ∈ ht.nodes ↔ ∃ index, node ∈ ht.table index := by
  simp [HashTable.nodes]

/-- Emptying the slots of each descriptor in turn. -/
def KeyNode.dropEach (fds : List Fd) (node : KeyNode) : KeyNode :=
  fds.foldl (fun node fd => node.dropSubscriber fd) node

/-- The sweeps go through the table node by node. -/
theorem disconnectEach_eq (fds : List Fd) (table : HashTable) :
    disconnectEach fds table = table.mapNodes (KeyNode.dropEach fds) := by
  induction fds generalizing table with
  | nil =>
    refine congrArg HashTable.mk (funext fun index => ?_)
    exact (List.map_id _).symm
  | cons fd fds ih =>
    rw [disconnectEach, List.foldl_cons, ← disconnectEach, ih]
    refine congrArg HashTable.mk (funext fun index => ?_)
    exact List.map_map

theorem Slots.ext {slots slots' : Slots} (same : slots.fds = slots'.fds) : slots = slots' := by
  cases slots
  cases slots'
  cases same
  rfl

theorem Slots.remove_fds (slots : Slots) (fd : Fd) :
    (slots.remove fd).fds = slots.fds.map fun slot => if slot = fd then 0 else slot := rfl

/-- Only empty slots are left once every descriptor held is dropped. -/
theorem KeyNode.dropEach_eq {fds : List Fd} {node : KeyNode}
    (named : ∀ fd ∈ node.subscribersFds.fds, fd ≠ 0 → fd ∈ fds) :
    node.dropEach fds = node.dropSubscribers := by
  induction fds generalizing node with
  | nil =>
    have zeros : node.subscribersFds = Slots.empty := by
      refine Slots.ext (List.eq_replicate_iff.mpr
        ⟨node.subscribersFds.length_eq, fun fd held => ?_⟩)
      by_contra nonzero
      exact absurd (named fd held nonzero) List.not_mem_nil
    rw [KeyNode.dropSubscribers, ← zeros]
    rfl
  | cons fd fds ih =>
    -- The first sweep leaves only descriptors of the rest of the list.
    have later : ∀ other ∈ (node.dropSubscriber fd).subscribersFds.fds, other ≠ 0 →
        other ∈ fds := by
      intro other held nonzero
      rw [KeyNode.dropSubscriber, Slots.remove_fds, List.mem_map] at held
      obtain ⟨slot, inside, rfl⟩ := held
      by_cases same : slot = fd
      · rw [if_pos same] at nonzero
        exact absurd rfl nonzero
      · rw [if_neg same] at nonzero ⊢
        exact (List.mem_cons.mp (named slot inside nonzero)).resolve_left same
    exact ih later

/-- **The list form of `disconnect_all`.** -/
theorem disconnectEach_eq_disconnectAll {fds : List Fd} {table : HashTable}
    (named : table.Named fds) : disconnectEach fds table = (disconnectAll table).2 := by
  rw [disconnectEach_eq]
  refine congrArg HashTable.mk (funext fun index => List.map_congr_left fun node member => ?_)
  exact KeyNode.dropEach_eq (named node (HashTable.mem_nodes.mpr ⟨index, member⟩))

/-! ### One `disconnect` -/

/-- The node is as before, but for the slots of the descriptor, which are empty. -/
structure KeyNode.Dropped (fd : Fd) (before after : KeyNode) : Prop where
  key : after.key = before.key
  value : after.value = before.value
  cleared : ∀ index, before.slot index = fd → after.slot index = 0
  others : ∀ index, before.slot index ≠ fd → after.slot index = before.slot index

/-- The chains are as before, node for node, but for the slots of the descriptor. -/
def HashTable.Dropped (fd : Fd) (before after : HashTable) : Prop :=
  ∀ index, List.Forall₂ (KeyNode.Dropped fd) (before.table index) (after.table index)

theorem KeyNode.dropSubscriber_slot {fd : Fd} (node : KeyNode) (index : ℕ) :
    (node.dropSubscriber fd).slot index = if node.slot index = fd then 0 else node.slot index := by
  simp only [KeyNode.slot, KeyNode.dropSubscriber, Slots.remove, List.getD_eq_getElem?_getD,
    List.getElem?_map]
  cases node.subscribersFds.fds[index]? with
  | none => simp
  | some slot => rfl

theorem KeyNode.dropped_dropSubscriber (fd : Fd) (node : KeyNode) :
    node.Dropped fd (node.dropSubscriber fd) := by
  refine ⟨rfl, rfl, fun index same => ?_, fun index different => ?_⟩
  · rw [node.dropSubscriber_slot, if_pos same]
  · rw [node.dropSubscriber_slot, if_neg different]

/-- **The frame of `disconnect`.** -/
theorem disconnect_dropped (fd : Fd) (table : HashTable) :
    table.Dropped fd (disconnect fd table).2 := by
  intro index
  refine List.forall₂_map_right_iff.mpr (List.forall₂_same.mpr fun node _ => ?_)
  exact node.dropped_dropSubscriber fd

/-! ### Nothing is sent to a descriptor without a slot -/

/-- No slot holds the descriptor. -/
def KeyNode.Free (fd : Fd) (node : KeyNode) : Prop := fd ∉ node.subscribersFds.fds

/-- No slot of the table holds the descriptor. -/
def HashTable.Free (fd : Fd) (ht : HashTable) : Prop :=
  ∀ index, ∀ node ∈ ht.table index, node.Free fd

/-- No frame goes to the descriptor. -/
def SendsNothing (fd : Fd) (sent : List Notification) : Prop :=
  ∀ notification ∈ sent, notification.fd ≠ fd

theorem KeyNode.dropSubscriber_free {fd : Fd} (nonzero : fd ≠ 0) (node : KeyNode) :
    (node.dropSubscriber fd).Free fd := by
  intro held
  rw [KeyNode.dropSubscriber, Slots.remove_fds, List.mem_map] at held
  obtain ⟨slot, _, same⟩ := held
  by_cases here : slot = fd
  · rw [if_pos here] at same
    exact nonzero same.symm
  · rw [if_neg here] at same
    exact here same

theorem KeyNode.exchange_free {fd old new : Fd} {node : KeyNode} (free : node.Free fd)
    (other : new ≠ fd) : (node.exchange old new).Free fd := by
  by_cases inside : old ∈ node.subscribersFds.fds
  · have moved := KeyNode.held_exchange new fd inside
    rw [if_neg other, Slots.held, Slots.held, List.count_eq_zero.mpr free] at moved
    exact List.count_eq_zero.mp (by omega)
  · rwa [KeyNode.exchange_of_not_mem inside]

theorem notifySubscribers_sendsNothing {fd : Fd} {node : KeyNode} (free : node.Free fd)
    (key text : CStr) : SendsNothing fd (notifySubscribers node.subscribersFds key text) := by
  intro notification member
  obtain ⟨slot, inside, rfl⟩ := List.mem_map.mp member
  rintro rfl
  exact free (List.mem_filter.mp inside).1

theorem Slots.empty_free {fd : Fd} (nonzero : fd ≠ 0) : fd ∉ Slots.empty.fds :=
  List.count_eq_zero.mp (Slots.held_empty nonzero)

/-- The nodes of a chain with the found one replaced. -/
theorem HashTable.Free.replaced {fd : Fd} {ht : HashTable} (free : ht.Free fd) {key : CStr}
    {index : Fin tableSize} {before after : List KeyNode} {node : KeyNode}
    (found : ht.FoundAt key index before node after) (kept : List KeyNode)
    (keptFree : node.Free fd → ∀ other ∈ kept, other.Free fd) :
    (ht.setChain index (before ++ (kept ++ after))).Free fd := by
  have inChain := free index
  rw [found.chain] at inChain
  refine HashTable.setChain_forall free index fun other member => ?_
  rcases List.mem_append.mp member with member | member
  · exact inChain other (List.mem_append_left _ member)
  · rcases List.mem_append.mp member with member | member
    · exact keptFree (inChain node (by simp)) other member
    · exact inChain other (by simp [member])

/-- **The step lemma.** Without a subscription with it, the descriptor gets no slot and no frame. -/
theorem Acts.free {fd : Fd} (nonzero : fd ≠ 0) {ht : HashTable} {op : StoreOp} {outcome : Outcome}
    (acts : Acts ht op outcome) (other : ∀ key, op ≠ .writeSubscription key fd)
    (free : ht.Free fd) : outcome.table.Free fd ∧ SendsNothing fd outcome.notified := by
  have silent : SendsNothing fd [] := fun _ member => absurd member List.not_mem_nil
  cases acts with
  | created value missing =>
    refine ⟨HashTable.setChain_forall free _ (List.forall_mem_cons.mpr ⟨?_, free _⟩), silent⟩
    exact Slots.empty_free nonzero
  | overwritten value found =>
    refine ⟨free.replaced found [_] fun nodeFree => ?_, ?_⟩
    · exact List.forall_mem_singleton.mpr nodeFree
    · exact notifySubscribers_sendsNothing (free _ _ found.mem) _ _
  | unlinked found =>
    refine ⟨free.replaced found [] fun _ => by simp, ?_⟩
    exact notifySubscribers_sendsNothing (free _ _ found.mem) _ _
  | notUnlinked missing => exact ⟨free, silent⟩
  | read key value => exact ⟨free, silent⟩
  | @subscribed key index before after node added found =>
    refine ⟨free.replaced found [_] fun nodeFree => ?_, silent⟩
    refine List.forall_mem_singleton.mpr (KeyNode.exchange_free nodeFree fun same => ?_)
    exact other key (same ▸ rfl)
  | notSubscribed added missing => exact ⟨free, silent⟩
  | unsubscribed removed found =>
    refine ⟨free.replaced found [_] fun nodeFree => ?_, silent⟩
    exact List.forall_mem_singleton.mpr (KeyNode.exchange_free nodeFree (Ne.symm nonzero))
  | notUnsubscribed removed missing => exact ⟨free, silent⟩
  | disconnected gone =>
    refine ⟨fun index => List.forall_mem_map.mpr fun node member held => ?_, silent⟩
    rw [KeyNode.dropSubscriber, Slots.remove_fds, List.mem_map] at held
    obtain ⟨slot, inside, same⟩ := held
    split at same
    · exact nonzero same.symm
    · exact free index node member (same ▸ inside)
  | allDisconnected =>
    refine ⟨fun index => List.forall_mem_map.mpr fun node _ => ?_, silent⟩
    exact Slots.empty_free nonzero

/-- **The run lemma.** Until a subscription with it, nothing is sent to the descriptor. -/
theorem run_sendsNothing {fd : Fd} (nonzero : fd ≠ 0) {start ht : HashTable} {steps : List Step}
    (run : Run start steps ht) (free : start.Free fd)
    (other : ∀ step ∈ steps, ∀ key, step.op ≠ .writeSubscription key fd) :
    ht.Free fd ∧ ∀ step ∈ steps, SendsNothing fd step.outcome.notified := by
  induction run with
  | nil => exact ⟨free, fun _ member => absurd member List.not_mem_nil⟩
  | @snoc earlierSteps middle op outcome earlier called ih =>
    obtain ⟨freeMiddle, before⟩ := ih fun step member => other step (List.mem_append_left _ member)
    obtain ⟨freeAfter, now⟩ := (acts_of_exec called).free nonzero
      (other ⟨op, middle, outcome⟩ (by simp)) freeMiddle
    refine ⟨freeAfter, fun step member => ?_⟩
    rcases List.mem_append.mp member with member | member
    · exact before step member
    · rw [List.mem_singleton.mp member]
      exact now

/-- **`disconnect_all` is the fast form of `disconnect`**, and a `disconnect` touches the slots of
its descriptor only; from then on nothing is sent there until a subscription with it. -/
theorem disconnectAll_is_disconnect_of_each (table : HashTable) :
    (∀ fds, table.Named fds → disconnectEach fds table = (disconnectAll table).2) ∧
      ∀ fd, fd ≠ 0 → table.Dropped fd (disconnect fd table).2 ∧
        ∀ steps ht, Run (disconnect fd table).2 steps ht →
          (∀ step ∈ steps, ∀ key, step.op ≠ .writeSubscription key fd) →
          ∀ step ∈ steps, SendsNothing fd step.outcome.notified := by
  refine ⟨fun fds named => disconnectEach_eq_disconnectAll named, fun fd nonzero => ?_⟩
  refine ⟨disconnect_dropped fd table, fun steps ht run other => ?_⟩
  have free : (disconnect fd table).2.Free fd := fun index =>
    List.forall_mem_map.mpr fun node _ => node.dropSubscriber_free nonzero
  exact (run_sendsNothing nonzero run free other).2

end Kvs.Server
