/-
**When the table refines a finite map.**

`LastWrite ops key value` is the specification: among the calls made so far, `write_pair` of this
value is the last one that wrote or deleted the key. `RefinesMap ops` says that, call by call from
the empty table, the functions of `kvs.c` answer by it, and that a subscription call changes no
value.

The strings may have any length, and `write_pair` and `delete_pair` look at none. One that overruns
the frame of a subscribed key smashes the stack of its call; `table_refines_map` says that the table
refines the map exactly as long as none does.
-/

import Kvs.Store.Notification
import Kvs.Store.Overrun

namespace Kvs.Server

/-- The call writes or deletes the key. -/
def StoreOp.touches (key : Key) : StoreOp → Prop
  | writePair other _ | deletePair other => other = key
  | _ => False

/-- The last call that wrote or deleted the key wrote this value. -/
def LastWrite (ops : List StoreOp) (key : Key) (value : CStr) : Prop :=
  EventLog.Since (· = .writePair key value) (StoreOp.touches key) ops

/-- The key has been written and not deleted since. -/
def Present (ops : List StoreOp) (key : Key) : Prop := ∃ value, LastWrite ops key value

/-- The value the calls leave at the key. -/
def lastValue (ops : List StoreOp) (key : Key) : Option CStr :=
  ops.foldl (fun old op => op.effect key old) none

theorem lastValue_snoc (ops : List StoreOp) (op : StoreOp) (key : Key) :
    lastValue (ops ++ [op]) key = op.effect key (lastValue ops key) := by
  rw [lastValue, List.foldl_append]
  rfl

/-- Two calls say something about a key. -/
theorem touches_cases {op : StoreOp} {key : Key} (touched : op.touches key) :
    (∃ value, op = .writePair key value) ∨ op = .deletePair key := by
  cases op with
  | writePair written value =>
    obtain rfl : written = key := touched
    exact .inl ⟨value, rfl⟩
  | deletePair deleted =>
    obtain rfl : deleted = key := touched
    exact .inr rfl
  | readPair => exact touched.elim
  | writeSubscription => exact touched.elim
  | deleteSubscription => exact touched.elim
  | disconnect => exact touched.elim
  | disconnectAll => exact touched.elim

theorem effect_of_not_touches {op : StoreOp} {key : Key} (other : ¬ op.touches key)
    (old : Option CStr) : op.effect key old = old := by
  cases op with
  | writePair written value => exact if_neg other
  | deletePair deleted => exact if_neg other
  | readPair => rfl
  | writeSubscription => rfl
  | deleteSubscription => rfl
  | disconnect => rfl
  | disconnectAll => rfl

/-- The fold computes the specification. -/
theorem lastValue_eq_some_iff (ops : List StoreOp) (key : Key) (value : CStr) :
    lastValue ops key = some value ↔ LastWrite ops key value := by
  induction ops using List.reverseRecOn with
  | nil =>
    constructor
    · intro equal
      cases equal
    · exact fun written => absurd written EventLog.not_since_nil
  | append_singleton ops op ih =>
    rw [lastValue_snoc, LastWrite, EventLog.since_snoc, ← LastWrite, ← ih]
    by_cases touched : op.touches key
    · obtain ⟨other, rfl⟩ | rfl := touches_cases touched
      · simp [StoreOp.effect, StoreOp.touches]
      · simp [StoreOp.effect, StoreOp.touches]
    · rw [effect_of_not_touches touched]
      constructor
      · exact fun old => Or.inr ⟨touched, old⟩
      · rintro (rfl | ⟨_, old⟩)
        · exact absurd rfl touched
        · exact old

theorem lastValue_eq_none_iff (ops : List StoreOp) (key : Key) :
    lastValue ops key = none ↔ ¬ Present ops key := by
  rw [Option.eq_none_iff_forall_ne_some]
  constructor
  · rintro missing ⟨value, written⟩
    exact missing value ((lastValue_eq_some_iff ops key value).mpr written)
  · intro absent value equal
    exact absent ⟨value, (lastValue_eq_some_iff ops key value).mp equal⟩

/-- **The run lemma.** After any calls the table is well formed and holds their last values. -/
theorem runOps_values (ops : List StoreOp) :
    ∃ ht, runOps ops createHashTable = .ok ht ∧ ht.WellFormed ∧
      ∀ key, ht.valueAt key = lastValue ops key := by
  induction ops using List.reverseRecOn with
  | nil =>
    refine ⟨createHashTable, rfl, createHashTable_wellFormed, fun key => ?_⟩
    rw [HashTable.valueAt, createHashTable_lookup]
    rfl
  | append_singleton ops op ih =>
    obtain ⟨middle, ran, wf, values⟩ := ih
    obtain ⟨outcome, called, kept, effects⟩ := exec_total wf op
    refine ⟨outcome.table, ?_, kept, fun key => ?_⟩
    · rw [runOps_append, ran]
      show (op.exec middle).bind _ = _
      rw [called]
      rfl
    · rw [effects, values, lastValue_snoc]

/-! ### What the functions answer -/

/-- `delete_pair` answers `0` exactly for a key with a value. -/
theorem deletePair_code {ht : HashTable} (wf : ht.WellFormed) (key : Key) :
    ∃ code table sent, deletePair ht key.1 = .ok (code, table, sent) ∧
      (code = 0 ↔ ht.valueAt key ≠ none) := by
  cases present : ht.lookup key.1 with
  | none =>
    refine ⟨1, ht, [], deletePair_absent key present, ?_⟩
    simp [HashTable.valueAt, present]
  | some node =>
    obtain ⟨table, called, _⟩ := deletePair_present wf key present
    refine ⟨0, table, _, called, ?_⟩
    simp [HashTable.valueAt, present]

/-- `write_subscription` answers `1` exactly for a key without a value. -/
theorem writeSubscription_code {ht : HashTable} (wf : ht.WellFormed) (key : Key) (fd : Fd) :
    ∃ code table, writeSubscription ht key.1 fd = .ok (code, table) ∧
      (code = 1 ↔ ht.valueAt key = none) := by
  cases present : ht.lookup key.1 with
  | none =>
    refine ⟨1, ht, writeSubscription_absent key fd present, ?_⟩
    simp [HashTable.valueAt, present]
  | some node =>
    obtain ⟨table, called, _⟩ := writeSubscription_present wf key fd present
    refine ⟨_, table, called, ?_⟩
    split_ifs <;> simp [HashTable.valueAt, present]

/-! ### The specification of a run -/

/-- What the call may answer after the calls made earlier. -/
def StoreOp.AnswersBy (earlier : List StoreOp) : StoreOp → Answer → Prop
  | readPair key, .text value => ∀ written, value = some written ↔ LastWrite earlier key written
  | deletePair key, .code code => code = 0 ↔ Present earlier key
  | writeSubscription key _, .code code => code = 1 ↔ ¬ Present earlier key
  | readPair _, .code _ | deletePair _, .text _ | writeSubscription _ _, .text _ => False
  | writePair _ _, _ | deleteSubscription _ _, _ | disconnect _, _ | disconnectAll, _ => True

/-- A table reads as the map the calls leave. -/
structure ReadsAs (ht : HashTable) (ops : List StoreOp) : Prop where
  last : ∀ key value, readPair ht key.1 = .ok (some value) ↔ LastWrite ops key value
  missing : ∀ key, readPair ht key.1 = .ok none ↔ ¬ Present ops key

/-- **The hash table refines a finite map**: every call ends, answers by the calls before it and
leaves the map of all of them, and a subscription call leaves the values as they are. -/
def RefinesMap (ops : List StoreOp) : Prop :=
  ∀ earlier op later, ops = earlier ++ op :: later →
    ∃ before outcome, runCalls earlier createHashTable = .ok before ∧
      op.call before = .ok outcome ∧ op.AnswersBy earlier outcome.answer ∧
      ReadsAs before earlier ∧ ReadsAs outcome.table (earlier ++ [op]) ∧
      (op.isSubscription → ∀ key : Key, readPair outcome.table key.1 = readPair before key.1)

/-! ### The run -/

theorem readsAs_of_values {ht : HashTable} {ops : List StoreOp}
    (values : ∀ key, ht.valueAt key = lastValue ops key) : ReadsAs ht ops where
  last key value := by rw [readPair_eq, values, Except.ok.injEq, lastValue_eq_some_iff]
  missing key := by rw [readPair_eq, values, Except.ok.injEq, lastValue_eq_none_iff]

/-- A call on the table of the map answers by it. -/
theorem exec_answersBy {ht : HashTable} (wf : ht.WellFormed) {ops : List StoreOp}
    (values : ∀ key, ht.valueAt key = lastValue ops key) {op : StoreOp} {outcome : Outcome}
    (called : op.exec ht = .ok outcome) : op.AnswersBy ops outcome.answer := by
  cases op with
  | readPair key =>
    rw [StoreOp.exec, readPair_eq] at called
    cases called
    intro written
    rw [values, lastValue_eq_some_iff]
  | deletePair key =>
    obtain ⟨code, table, sent, deleted, answer⟩ := deletePair_code wf key
    rw [StoreOp.exec, deleted] at called
    cases called
    refine answer.trans ?_
    rw [values, ne_eq, lastValue_eq_none_iff, not_not]
  | writeSubscription key fd =>
    obtain ⟨code, table, subscribed, answer⟩ := writeSubscription_code wf key fd
    rw [StoreOp.exec, subscribed] at called
    cases called
    refine answer.trans ?_
    rw [values, lastValue_eq_none_iff]
  | writePair => trivial
  | deleteSubscription => trivial
  | disconnect => trivial
  | disconnectAll => trivial

/-- **The table refines the map as long as no frame overruns `str`**, and no longer. -/
theorem table_refines_map (ops : List StoreOp) : RefinesMap ops ↔ FramesFit ops := by
  constructor
  · intro refines earlier op later split ht ran overruns
    obtain ⟨before, outcome, reached, called, _⟩ := refines earlier op later split
    cases reached.symm.trans ran
    have fit := framesFit_of_runCalls ran
    obtain ⟨ht', ran', wf, _⟩ := runOps_values earlier
    cases (runCalls_of_framesFit fit).symm.trans ran |>.symm.trans ran'
    cases ((call_eq wf op).1 overruns).symm.trans called
  · rintro fit earlier op later rfl
    obtain ⟨before, ran, wf, values⟩ := runOps_values earlier
    obtain ⟨outcome, called, _, effects⟩ := exec_total wf op
    have reached := (runCalls_of_framesFit fit.of_append).trans ran
    have fits := fit earlier op later rfl before reached
    have values' (key : Key) : outcome.table.valueAt key = lastValue (earlier ++ [op]) key := by
      rw [effects, values, lastValue_snoc]
    refine ⟨before, outcome, reached, ((call_eq wf op).2 fits).trans called,
      exec_answersBy wf values called, readsAs_of_values values, readsAs_of_values values',
      fun subscription key => ?_⟩
    rw [readPair_eq, readPair_eq, effects, effect_of_isSubscription subscription]

/-! ### A value too long for its frame -/

/-- A value of `42` letters. -/
def overlongValue : CStr :=
  ⟨List.replicate 42 'v'.toUInt8, fun inside =>
    absurd (List.eq_of_mem_replicate inside) (by decide)⟩

/-- A client subscribes to a key. -/
def subscribedA : List StoreOp := [.writePair keyA valueAnna, .writeSubscription keyA clientFd.1]

/-- Writing the long value to the key ends the run. -/
theorem overlongWrite_overruns :
    (runCalls subscribedA createHashTable).bind
      (StoreOp.writePair keyA overlongValue).call = .error .frame := rfl

/-- The value written last is never read. -/
theorem overlongWrite_not_refines : ¬ ∀ ops, RefinesMap ops := by
  intro refines
  obtain ⟨before, outcome, reached, called, _⟩ :=
    refines (subscribedA ++ [.writePair keyA overlongValue, .readPair keyA]) subscribedA
      (.writePair keyA overlongValue) [.readPair keyA] rfl
  have ended := overlongWrite_overruns
  rw [reached, Except.bind, called] at ended
  cases ended

end Kvs.Server
