/-
**Frames that overrun their buffer (`server/kvs.c`).**

`write_pair` and `delete_pair` copy the key and the value, or `DELETED`, into `str`, an array on
their stack with room for two strings of `MAX_STRING_SIZE` bytes. Nothing there looks at the length
of the strings. `StoreOp.call` is a call with its frames written, where an overrun ends the run, and
`runCalls` a sequence of them.

`call_eq` says when that happens: `StoreOp.Overruns` is about the arguments of the call and the
slots of its key alone. A sequence none of whose calls does so runs as `runOps` does
(`runCalls_of_framesFit`), and no other comes to its end (`framesFit_of_runCalls`).
-/

import Kvs.Store.Run

namespace Kvs.Server

/-! ### Copies into the frame -/

theorem copyInto_length {buffer copied : List Byte} {offset : ℕ} {src : CStr}
    (copies : copyInto buffer offset src = some copied) : copied.length = buffer.length := by
  unfold copyInto at copies
  split at copies
  · rename_i fits
    cases copies
    simp only [List.length_append, List.length_take, List.length_drop, CStr.length] at fits ⊢
    omega
  · cases copies

theorem copyInto_eq_none_iff {buffer : List Byte} {offset : ℕ} {src : CStr} :
    copyInto buffer offset src = none ↔ buffer.length < offset + src.length := by
  rw [copyInto, ← not_le]
  split
  · rename_i fits
    simp [fits]
  · rename_i overruns
    simp [overruns]

/-- The strings a frame has no room for. -/
theorem notificationFrame_eq_none_iff {key text : CStr} :
    notificationFrame key text = none ↔
      (maxStringSize + 1) * 2 < key.length ∨ maxStringSize + 1 < text.length := by
  have zeroed : (List.replicate ((maxStringSize + 1) * 2) nul).length = (maxStringSize + 1) * 2 :=
    List.length_replicate
  rw [notificationFrame]
  cases first : copyInto (List.replicate ((maxStringSize + 1) * 2) nul) 0 key with
  | none =>
    rw [copyInto_eq_none_iff, zeroed, Nat.zero_add] at first
    exact iff_of_true rfl (.inl first)
  | some str =>
    have length := (copyInto_length first).trans zeroed
    have fits : ¬ (maxStringSize + 1) * 2 < key.length := by
      intro long
      have overruns : copyInto (List.replicate ((maxStringSize + 1) * 2) nul) 0 key = none :=
        copyInto_eq_none_iff.mpr (by omega)
      cases overruns.symm.trans first
    rw [Option.bind_some, copyInto_eq_none_iff, length]
    omega

/-- `"DELETED"` fits. -/
theorem deletedText_length : deletedText.length = 7 := rfl

/-! ### The call that overruns -/

/-- A descriptor is in a slot of the key. -/
def HashTable.Subscribed (ht : HashTable) (key : Key) : Prop :=
  ∃ node, ht.lookup key.1 = some node ∧ node.subscribersFds.occupied ≠ []

/-- The call tells a subscriber of its key, and its strings have no room in `str`. -/
def StoreOp.Overruns (ht : HashTable) : StoreOp → Prop
  | writePair key value => ht.Subscribed key ∧
      ((maxStringSize + 1) * 2 < key.1.length ∨ maxStringSize + 1 < value.length)
  | deletePair key => ht.Subscribed key ∧ (maxStringSize + 1) * 2 < key.1.length
  | _ => False

/-- Make the call and write its frames. -/
def StoreOp.call : StoreOp → HashTable → Except Fault Outcome
  | writePair key value, ht =>
    (framed (Server.writePair ht key.1 value)).map fun (code, table, sent) =>
      ⟨.code code, table, sent⟩
  | deletePair key, ht =>
    (framed (Server.deletePair ht key.1)).map fun (code, table, sent) => ⟨.code code, table, sent⟩
  | op, ht => op.exec ht

/-- Make the calls of a list, one after another, with their frames. -/
def runCalls : List StoreOp → HashTable → Except Fault HashTable
  | [], ht => .ok ht
  | op :: ops, ht => do
    let outcome ← op.call ht
    runCalls ops outcome.table

theorem framed_ok (code : Int) (table : HashTable) (notified : List Notification) :
    framed (.ok (code, table, notified)) =
      if ∃ notification ∈ notified, notification.frame = none then .error .frame
      else .ok (code, table, notified) := rfl

/-- The frames of a key's subscribers overrun when there is one and a string is too long. -/
theorem notifySubscribers_overruns {slots : Slots} {key text : CStr} :
    (∃ notification ∈ notifySubscribers slots key text, notification.frame = none) ↔
      slots.occupied ≠ [] ∧ notificationFrame key text = none := by
  simp only [notifySubscribers, List.mem_map]
  constructor
  · rintro ⟨_, ⟨fd, member, rfl⟩, none⟩
    exact ⟨List.ne_nil_of_mem member, none⟩
  · rintro ⟨some, none⟩
    obtain ⟨fd, member⟩ := List.exists_mem_of_ne_nil _ some
    exact ⟨_, ⟨fd, member, rfl⟩, none⟩

theorem subscribed_iff {ht : HashTable} {key : Key} {node : KeyNode}
    (present : ht.lookup key.1 = some node) :
    ht.Subscribed key ↔ node.subscribersFds.occupied ≠ [] := by
  simp [HashTable.Subscribed, present]

theorem not_subscribed {ht : HashTable} {key : Key} (absent : ht.lookup key.1 = none) :
    ¬ ht.Subscribed key := by
  simp [HashTable.Subscribed, absent]

/-- **A call overruns `str` exactly when it says so.** -/
theorem call_eq {ht : HashTable} (wf : ht.WellFormed) (op : StoreOp) :
    (op.Overruns ht → op.call ht = .error .frame) ∧
      (¬ op.Overruns ht → op.call ht = op.exec ht) := by
  cases op with
  | writePair key value =>
    cases present : ht.lookup key.1 with
    | none =>
      obtain ⟨table, called, _⟩ := writePair_absent wf key value present
      refine ⟨fun overruns => absurd overruns.1 (not_subscribed present), fun _ => ?_⟩
      rw [StoreOp.call, StoreOp.exec, called, framed_ok, if_neg (by simp)]
    | some node =>
      obtain ⟨table, called, _⟩ := writePair_present wf key value present
      rw [StoreOp.call, StoreOp.exec, called, framed_ok, StoreOp.Overruns, subscribed_iff present,
        ← notificationFrame_eq_none_iff, ← notifySubscribers_overruns]
      exact ⟨fun overruns => by rw [if_pos overruns]; rfl, fun fits => by rw [if_neg fits]⟩
  | deletePair key =>
    cases present : ht.lookup key.1 with
    | none =>
      refine ⟨fun overruns => absurd overruns.1 (not_subscribed present), fun _ => ?_⟩
      rw [StoreOp.call, StoreOp.exec, deletePair_absent key present, framed_ok, if_neg (by simp)]
    | some node =>
      obtain ⟨table, called, _⟩ := deletePair_present wf key present
      have long : (maxStringSize + 1) * 2 < key.1.length ↔
          notificationFrame key.1 deletedText = none := by
        rw [notificationFrame_eq_none_iff, deletedText_length]
        simp [maxStringSize]
      rw [StoreOp.call, StoreOp.exec, called, framed_ok, StoreOp.Overruns, subscribed_iff present,
        long, ← notifySubscribers_overruns]
      exact ⟨fun overruns => by rw [if_pos overruns]; rfl, fun fits => by rw [if_neg fits]⟩
  | readPair => exact ⟨False.elim, fun _ => rfl⟩
  | writeSubscription => exact ⟨False.elim, fun _ => rfl⟩
  | deleteSubscription => exact ⟨False.elim, fun _ => rfl⟩
  | disconnect => exact ⟨False.elim, fun _ => rfl⟩
  | disconnectAll => exact ⟨False.elim, fun _ => rfl⟩

/-! ### Sequences of calls -/

theorem runCalls_append (earlier later : List StoreOp) (ht : HashTable) :
    runCalls (earlier ++ later) ht = (runCalls earlier ht).bind (runCalls later) := by
  induction earlier generalizing ht with
  | nil => rfl
  | cons op earlier ih =>
    show (op.call ht).bind _ = ((op.call ht).bind _).bind _
    cases op.call ht with
    | error fault => rfl
    | ok outcome => exact ih outcome.table

/-- No call overruns `str` on the table the earlier ones leave. -/
def FramesFit (ops : List StoreOp) : Prop :=
  ∀ earlier op later, ops = earlier ++ op :: later →
    ∀ ht, runCalls earlier createHashTable = .ok ht → ¬ op.Overruns ht

theorem FramesFit.of_append {earlier later : List StoreOp} (fit : FramesFit (earlier ++ later)) :
    FramesFit earlier := by
  rintro before op after rfl
  exact fit before op (after ++ later) (by simp)

/-- A sequence of calls without an overrun runs as if `str` had any size. -/
theorem runCalls_of_framesFit {ops : List StoreOp} (fit : FramesFit ops) :
    runCalls ops createHashTable = runOps ops createHashTable := by
  induction ops using List.reverseRecOn with
  | nil => rfl
  | append_singleton ops op ih =>
    obtain ⟨ht, ran, wf⟩ := runOps_total createHashTable_wellFormed ops
    have same := ih fit.of_append
    have fits := fit ops op [] rfl ht (same.trans ran)
    rw [runCalls_append, runOps_append, same, ran]
    show (op.call ht).bind _ = (op.exec ht).bind _
    rw [(call_eq wf op).2 fits]
    rfl

/-- A sequence of calls that comes to its end had no overrun. -/
theorem framesFit_of_runCalls {ops : List StoreOp} {ht : HashTable}
    (ran : runCalls ops createHashTable = .ok ht) : FramesFit ops := by
  induction ops using List.reverseRecOn generalizing ht with
  | nil =>
    intro earlier op later split
    cases earlier <;> cases split
  | append_singleton ops last ih =>
    rw [runCalls_append] at ran
    obtain ⟨middle, reached, ended⟩ := bind_ok_inv ran
    have fit := ih reached
    intro earlier op later split before met
    rcases List.eq_nil_or_concat later with rfl | ⟨later, other, rfl⟩
    · obtain ⟨rfl, same⟩ := List.append_inj' split rfl
      cases same
      cases met.symm.trans reached
      obtain ⟨ht', ran', wf⟩ := runOps_total createHashTable_wellFormed ops
      cases (runCalls_of_framesFit fit).symm.trans reached |>.symm.trans ran'
      intro overruns
      obtain ⟨outcome, called, _⟩ := bind_ok_inv ended
      cases ((call_eq wf last).1 overruns).symm.trans called
    · rw [List.concat_eq_append, ← List.cons_append, ← List.append_assoc] at split
      exact fit earlier op later (List.append_inj' split rfl).1 before met

end Kvs.Server
