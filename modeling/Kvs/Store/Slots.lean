/-
**The subscriber slots of a table.**

`HashTable.slot` is what a table holds in a slot of a key, `0` for a slot that is empty or of an
absent key. A call fills a slot only in `write_subscription`, and then the first empty one of the
key (`writeSubscription_slot`); every other call leaves each slot as it is or empties it
(`exec_noFuller`, `pairOp_noFuller`), and `disconnect_all` empties all.
-/

import Kvs.Job.Independence

namespace Kvs.Server

/-- A slot of a node. -/
def KeyNode.slot (node : KeyNode) (index : ℕ) : Fd := node.subscribersFds.fds.getD index 0

/-- A slot of a key. -/
def HashTable.slot (ht : HashTable) (key : CStr) (index : ℕ) : Fd :=
  (ht.lookup key).elim 0 (KeyNode.slot · index)

/-- The key has an empty slot. -/
def HashTable.HasRoom (ht : HashTable) (key : CStr) : Prop :=
  ∃ node ∈ ht.lookup key, 0 ∈ node.subscribersFds.fds

instance (ht : HashTable) (key : CStr) : Decidable (ht.HasRoom key) :=
  match found : ht.lookup key with
  | none => isFalse fun ⟨_, present, _⟩ => by rw [found] at present; cases present
  | some node =>
    decidable_of_iff (0 ∈ node.subscribersFds.fds)
      ⟨fun empty => ⟨node, found, empty⟩, fun ⟨other, present, empty⟩ => by
        rw [found] at present
        cases present
        exact empty⟩

/-- Each slot is as before, or empty. -/
def HashTable.NoFuller (table ht : HashTable) : Prop :=
  ∀ key index, table.slot key index = ht.slot key index ∨ table.slot key index = 0

variable {ht table : HashTable} {key : CStr} {node : KeyNode} {index : ℕ}

theorem slot_of_present (present : ht.lookup key = some node) :
    ht.slot key index = node.slot index := by
  rw [HashTable.slot, present, Option.elim_some]

theorem slot_of_absent (absent : ht.lookup key = none) : ht.slot key index = 0 := by
  rw [HashTable.slot, absent, Option.elim_none]

theorem HashTable.NoFuller.refl (ht : HashTable) : ht.NoFuller ht := fun _ _ => .inl rfl

theorem createHashTable_slot (key : CStr) (index : ℕ) : createHashTable.slot key index = 0 :=
  slot_of_absent (createHashTable_lookup key)

/-- A slot in use is one of a node of the table. -/
theorem slot_mem_nodes (used : ht.slot key index ≠ 0) :
    ∃ node ∈ ht.nodes, ht.slot key index ∈ node.subscribersFds.fds := by
  cases found : ht.lookup key with
  | none => exact absurd (slot_of_absent found) used
  | some node =>
    refine ⟨node, ?_, ?_⟩
    · unfold HashTable.lookup ChainedTable.lookup at found
      cases place : bucketOf key with
      | none =>
        rw [place] at found
        cases found
      | some bucket =>
        rw [place] at found
        exact List.mem_flatMap.mpr
          ⟨bucket, List.mem_finRange bucket, List.mem_of_find?_eq_some found⟩
    · rw [slot_of_present found] at used ⊢
      unfold KeyNode.slot at used ⊢
      rw [List.getD_eq_getElem?_getD] at used ⊢
      cases there : node.subscribersFds.fds[index]? with
      | none =>
        rw [there] at used
        exact absurd rfl used
      | some fd => exact List.mem_of_getElem? there

/-! ### Slots of a node -/

theorem getD_replace {fds : List Fd} {old : Fd} (new : Fd) (inside : old ∈ fds) (index : ℕ) :
    (fds.replace old new).getD index 0 =
      if index = fds.idxOf old then new else fds.getD index 0 := by
  induction fds generalizing index with
  | nil => cases inside
  | cons fd fds ih =>
    by_cases first : fd = old
    · subst first
      cases index <;> simp
    · have later : old ∈ fds := (List.mem_cons.mp inside).resolve_left (Ne.symm first)
      have skips : (fd :: fds).replace old new = fd :: fds.replace old new := by
        rw [List.replace_cons, beq_false_of_ne (Ne.symm first)]
      rw [skips, List.idxOf_cons_ne fds first]
      cases index with
      | zero => simp
      | succ index => simpa using ih later index

/-- An exchange stores the new descriptor where the old one was first. -/
theorem KeyNode.slot_exchange (node : KeyNode) (old new : Fd) (index : ℕ) :
    (node.exchange old new).slot index =
      if old ∈ node.subscribersFds.fds ∧ index = node.subscribersFds.fds.idxOf old then new
      else node.slot index := by
  unfold KeyNode.exchange Slots.exchange
  by_cases inside : old ∈ node.subscribersFds.fds
  · simp only [inside, true_and]
    exact getD_replace new inside index
  · simp only [inside, false_and, if_false]

/-- Emptying a slot fills no other. -/
theorem KeyNode.slot_exchange_zero (node : KeyNode) (fd : Fd) (index : ℕ) :
    (node.exchange fd 0).slot index = node.slot index ∨ (node.exchange fd 0).slot index = 0 := by
  rw [node.slot_exchange]
  split
  · exact .inr rfl
  · exact .inl rfl

/-- The place of the first empty slot holds nothing, even when it is past the last slot. -/
theorem KeyNode.slot_idxOf_zero (node : KeyNode) :
    node.slot (node.subscribersFds.fds.idxOf 0) = 0 := by
  unfold KeyNode.slot
  rw [List.getD_eq_getElem?_getD]
  by_cases inside : 0 ∈ node.subscribersFds.fds
  · rw [List.getElem?_idxOf inside, Option.getD_some]
  · rw [List.idxOf_eq_length inside, List.getElem?_eq_none le_rfl, Option.getD_none]

theorem KeyNode.slot_dropSubscriber (node : KeyNode) (fd : Fd) (index : ℕ) :
    (node.dropSubscriber fd).slot index = node.slot index ∨
      (node.dropSubscriber fd).slot index = 0 := by
  simp only [KeyNode.slot, KeyNode.dropSubscriber, Slots.remove, List.getD_eq_getElem?_getD,
    List.getElem?_map]
  cases node.subscribersFds.fds[index]? with
  | none => exact .inl rfl
  | some slot =>
    simp only [Option.map_some, Option.getD_some]
    split
    · exact .inr rfl
    · exact .inl rfl

theorem KeyNode.slot_empty (node : KeyNode) (none : node.subscribersFds = Slots.empty) :
    node.slot index = 0 := by
  simp only [KeyNode.slot, none, Slots.empty, List.getD_eq_getElem?_getD, List.getElem?_replicate]
  split <;> rfl

/-! ### What a call does to the slots -/

/-- A table that differs at one key is no fuller if that key is not. -/
theorem noFuller_of_update {new : Option KeyNode}
    (mapped : table.lookup = Function.update ht.lookup key new)
    (emptier : ∀ index, new.elim 0 (KeyNode.slot · index) = ht.slot key index ∨
      new.elim 0 (KeyNode.slot · index) = 0) : table.NoFuller ht := by
  intro other index
  by_cases same : other = key
  · subst same
    rw [HashTable.slot, mapped, Function.update_self]
    exact emptier index
  · left
    rw [HashTable.slot, mapped, Function.update_of_ne same, HashTable.slot]

/-- A table whose nodes were rewritten is no fuller if no node is. -/
theorem noFuller_of_map {rewrite : KeyNode → KeyNode}
    (mapped : ∀ key, table.lookup key = (ht.lookup key).map rewrite)
    (emptier : ∀ node index, (rewrite node).slot index = node.slot index ∨
      (rewrite node).slot index = 0) : table.NoFuller ht := by
  intro key index
  rw [HashTable.slot, mapped, HashTable.slot]
  cases ht.lookup key with
  | none => exact .inl rfl
  | some node => exact emptier node index

theorem writePair_noFuller (wf : ht.WellFormed) (key : Key) (value : CStr) :
    ∃ table sent, writePair ht key.1 value = .ok (0, table, sent) ∧ table.WellFormed ∧
      table.NoFuller ht := by
  cases present : ht.lookup key.1 with
  | none =>
    obtain ⟨table, called, kept, mapped⟩ := writePair_absent wf key value present
    exact ⟨table, _, called, kept, noFuller_of_update mapped fun _ =>
      .inr (KeyNode.slot_empty _ rfl)⟩
  | some node =>
    obtain ⟨table, called, kept, mapped⟩ := writePair_present wf key value present
    exact ⟨table, _, called, kept, noFuller_of_update mapped fun _ =>
      .inl (slot_of_present present).symm⟩

theorem deletePair_noFuller (wf : ht.WellFormed) (key : Key) :
    ∃ code table sent, deletePair ht key.1 = .ok (code, table, sent) ∧ table.WellFormed ∧
      table.NoFuller ht := by
  cases present : ht.lookup key.1 with
  | none => exact ⟨_, _, _, deletePair_absent key present, wf, .refl ht⟩
  | some node =>
    obtain ⟨table, called, kept, mapped⟩ := deletePair_present wf key present
    exact ⟨_, table, _, called, kept, noFuller_of_update mapped fun _ => .inr rfl⟩

theorem deleteSubscription_noFuller (wf : ht.WellFormed) (key : Key) (fd : Fd) :
    ∃ code table, deleteSubscription ht key.1 fd = .ok (code, table) ∧ table.WellFormed ∧
      table.NoFuller ht := by
  cases present : ht.lookup key.1 with
  | none => exact ⟨_, _, deleteSubscription_absent key fd present, wf, .refl ht⟩
  | some node =>
    obtain ⟨table, called, kept, mapped⟩ := deleteSubscription_present wf key fd present
    refine ⟨_, table, called, kept, noFuller_of_update mapped fun index => ?_⟩
    rw [slot_of_present present]
    exact node.slot_exchange_zero fd index

/-- **Every call but `write_subscription`** leaves each slot as it is or empties it. -/
theorem exec_noFuller (wf : ht.WellFormed) {op : StoreOp} {outcome : Outcome}
    (other : ∀ key fd, op ≠ .writeSubscription key fd) (executed : op.exec ht = .ok outcome) :
    outcome.table.WellFormed ∧ outcome.table.NoFuller ht := by
  cases op with
  | writePair key value =>
    obtain ⟨table, sent, called, kept, emptier⟩ := writePair_noFuller wf key value
    rw [StoreOp.exec, called] at executed
    cases executed
    exact ⟨kept, emptier⟩
  | deletePair key =>
    obtain ⟨code, table, sent, called, kept, emptier⟩ := deletePair_noFuller wf key
    rw [StoreOp.exec, called] at executed
    cases executed
    exact ⟨kept, emptier⟩
  | readPair key =>
    rw [StoreOp.exec, readPair_spec] at executed
    cases executed
    exact ⟨wf, .refl ht⟩
  | writeSubscription key fd => exact absurd rfl (other key fd)
  | deleteSubscription key fd =>
    obtain ⟨code, table, called, kept, emptier⟩ := deleteSubscription_noFuller wf key fd
    rw [StoreOp.exec, called] at executed
    cases executed
    exact ⟨kept, emptier⟩
  | disconnect fd =>
    cases executed
    exact ⟨disconnect_wellFormed wf fd,
      noFuller_of_map (disconnect_lookup ht fd) fun node => node.slot_dropSubscriber fd⟩
  | disconnectAll =>
    cases executed
    exact ⟨disconnectAll_wellFormed wf, noFuller_of_map (disconnectAll_lookup ht) fun node _ =>
      .inr (KeyNode.slot_empty _ rfl)⟩

/-- A call of a job fills no slot. -/
theorem pairOp_noFuller (wf : ht.WellFormed) {call : PairOp} {entry : Entry}
    (executed : call.exec ht = .ok (entry, table)) : table.WellFormed ∧ table.NoFuller ht := by
  cases call with
  | write key value =>
    obtain ⟨table, sent, called, kept, emptier⟩ := writePair_noFuller wf key value
    rw [PairOp.exec, called] at executed
    cases executed
    exact ⟨kept, emptier⟩
  | read key =>
    rw [PairOp.exec, readPair_spec] at executed
    cases executed
    exact ⟨wf, .refl ht⟩
  | delete key =>
    obtain ⟨code, table, sent, called, kept, emptier⟩ := deletePair_noFuller wf key
    rw [PairOp.exec, called] at executed
    cases executed
    exact ⟨kept, emptier⟩

/-- **`write_subscription`** fills the first empty slot of the key, if it has one. -/
theorem writeSubscription_slot (wf : ht.WellFormed) {key : Key} {fd : Fd} {outcome : Outcome}
    (executed : (StoreOp.writeSubscription key fd).exec ht = .ok outcome) :
    outcome.table.WellFormed ∧ ∀ other index,
      outcome.table.slot other index = ht.slot other index ∨
      other = key.1 ∧ outcome.table.slot other index = fd ∧
        ∃ node ∈ ht.lookup key.1, 0 ∈ node.subscribersFds.fds ∧
          index = node.subscribersFds.fds.idxOf 0 := by
  cases present : ht.lookup key.1 with
  | none =>
    rw [StoreOp.exec, writeSubscription_absent key fd present] at executed
    cases executed
    exact ⟨wf, fun _ _ => .inl rfl⟩
  | some node =>
    obtain ⟨table, called, kept, mapped⟩ := writeSubscription_present wf key fd present
    rw [StoreOp.exec, called] at executed
    cases executed
    refine ⟨kept, fun other index => ?_⟩
    by_cases same : other = key.1
    · subst same
      have written : table.slot key.1 index = (node.exchange 0 fd).slot index := by
        rw [HashTable.slot, mapped, Function.update_self, Option.elim_some]
      rw [written, slot_of_present present, node.slot_exchange]
      split
      · rename_i first
        exact .inr ⟨rfl, rfl, node, rfl, first.1, first.2⟩
      · exact .inl rfl
    · left
      show table.slot other index = ht.slot other index
      rw [HashTable.slot, mapped, Function.update_of_ne same, HashTable.slot]

/-- **`disconnect_all`** empties every slot. -/
theorem disconnectAll_slot (ht : HashTable) (key : CStr) (index : ℕ) :
    (disconnectAll ht).2.slot key index = 0 := by
  rw [HashTable.slot, disconnectAll_lookup]
  cases ht.lookup key with
  | none => rfl
  | some node => exact KeyNode.slot_empty _ rfl

end Kvs.Server
