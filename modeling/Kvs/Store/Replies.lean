/-
**What READ and DELETE answer.**

`readReply` and `deleteReply` are the replies a client is after, every entry in full. `absentKeys`
goes through a key list as `kvs_delete` does: a key it finds is gone at the later turns, so a
repeated key is missing from its second occurrence on (`absentKeys_snoc`).

`kvs_read` and `kvs_delete` put each entry into a buffer of `MAX_STRING_SIZE` bytes, the size of one
key. The text around the strings takes `3` bytes and `KVSMISSING` takes `10`, while the parser lets
a key have `39` bytes. `replies_complete_iff` says when the replies are complete: exactly when no
entry is longer than `39` bytes.
-/

import Kvs.Store.Backup
import Kvs.Store.Notification

namespace Kvs.Server

/-! ### The replies in full -/

/-- The entry of a key in the reply to READ. -/
def readText (ht : HashTable) (key : Key) : List Byte :=
  pairText key.1.bytes ((ht.valueAt key).elim errorText CStr.bytes)

/-- The reply to READ. -/
def readReply (ht : HashTable) (keys : List Key) : List Byte :=
  ascii ['['] ++ keys.flatMap (readText ht) ++ closingText

/-- The keys a DELETE does not find at their turn, when this is the map at the first. -/
def absentKeys : (Key → Option CStr) → List Key → List Key
  | _, [] => []
  | map, key :: keys =>
    if map key = none then key :: absentKeys map keys
    else absentKeys (Function.update map key none) keys

/-- The entry of a key in the reply to DELETE. -/
def missingEntryText (key : Key) : List Byte := pairText key.1.bytes missingText

/-- The reply to DELETE: nothing when every key is found. -/
def deleteReply (ht : HashTable) (keys : List Key) : List Byte :=
  match absentKeys ht.valueAt keys with
  | [] => []
  | absent => ascii ['['] ++ absent.flatMap missingEntryText ++ closingText

/-- READ and DELETE of these keys answer in full, and a repeated key is missing again. -/
structure RepliesComplete (ht : HashTable) (keys : List Key) : Prop where
  read : ∀ sent, kvsRead (keys.map Subtype.val) ⟨ht, sent⟩ = .ok (0, readReply ht keys)
  delete : ∀ sent, ∃ shared,
    kvsDelete (keys.map Subtype.val) ⟨ht, sent⟩ = .ok (0, deleteReply ht keys, shared)
  repeated : ∀ before key, before ++ [key] <+: keys → key ∈ before →
    absentKeys ht.valueAt (before ++ [key]) = absentKeys ht.valueAt before ++ [key]

/-! ### The keys absent at their turn -/

theorem absentKeys_snoc (map : Key → Option CStr) (before : List Key) (key : Key) :
    absentKeys map (before ++ [key]) =
      absentKeys map before ++ if map key = none ∨ key ∈ before then [key] else [] := by
  induction before generalizing map with
  | nil => by_cases absent : map key = none <;> simp [absentKeys, absent]
  | cons first before ih =>
    rw [List.cons_append, absentKeys, absentKeys]
    by_cases absent : map first = none
    · rw [if_pos absent, if_pos absent, ih, List.cons_append]
      by_cases same : key = first
      · subst same
        simp [absent]
      · simp [same]
    · rw [if_neg absent, if_neg absent, ih]
      by_cases same : key = first
      · subst same
        simp
      · simp [same]

/-- A key is absent at some turn when it had no value, or is found at an earlier turn. -/
theorem mem_absentKeys {map : Key → Option CStr} {keys : List Key} {key : Key} :
    key ∈ absentKeys map keys ↔ key ∈ keys ∧ (map key = none ∨ 1 < keys.count key) := by
  induction keys using List.reverseRecOn with
  | nil => simp [absentKeys]
  | append_singleton before last ih =>
    rw [absentKeys_snoc, List.mem_append, ih, List.mem_append, List.count_append]
    by_cases same : key = last
    · subst same
      rw [List.mem_singleton, List.count_singleton_self]
      by_cases absent : map key = none
      · simp [absent]
      · by_cases inside : key ∈ before
        · have counted : 0 < before.count key := List.count_pos_iff.mpr inside
          simp [absent, inside]
        · simp [absent, inside, List.count_eq_zero.mpr inside]
    · have other : key ∉ (if map last = none ∨ last ∈ before then [last] else []) := by
        split <;> simp [same]
      have none : [last].count key = 0 := List.count_eq_zero.mpr (by simpa using same)
      simp [same, other, none]

/-! ### What is written -/

theorem readEntry_eq (ht : HashTable) (key : Key) :
    readEntry ht key.1 = .ok ((readText ht key).take (maxStringSize - 1)) := by
  rw [readEntry, readPair_spec, readText, HashTable.valueAt]
  cases ht.lookup key.1 <;> rfl

theorem readEntries_eq (ht : HashTable) (keys : List Key) :
    readEntries (keys.map Subtype.val) ht =
      .ok (keys.flatMap fun key => (readText ht key).take (maxStringSize - 1)) := by
  induction keys with
  | nil => rfl
  | cons key keys ih =>
    rw [List.map_cons, readEntries, readEntry_eq, ih]
    rfl

/-- **The reply to READ**: every entry, cut to the buffer. -/
theorem kvsRead_eq (ht : HashTable) (keys : List Key) (sent : List Notification) :
    kvsRead (keys.map Subtype.val) ⟨ht, sent⟩ =
      .ok (0, ascii ['['] ++ (keys.flatMap fun key => (readText ht key).take (maxStringSize - 1)) ++
        closingText) := by
  rw [kvsRead, readEntries_eq]
  rfl

/-- A deletion empties the map at its key. -/
theorem valueAt_deleted {ht table : HashTable} {key : Key}
    (mapped : table.lookup = Function.update ht.lookup key.1 none) :
    table.valueAt = Function.update ht.valueAt key none := by
  funext other
  rw [HashTable.valueAt, mapped]
  by_cases same : other = key
  · subst same
    rw [Function.update_self, Function.update_self, Option.map_none]
  · rw [Function.update_of_ne same, Function.update_of_ne fun equal => same (Subtype.ext equal)]
    rfl

/-- The loop opens the bracket at the first missing key, unless it is open. -/
theorem deleteKeys_reply {ht : HashTable} (wf : ht.WellFormed) (keys : List Key) (aux : Bool)
    (sent : List Notification) :
    ∃ shared, deleteKeys (keys.map Subtype.val) aux ⟨ht, sent⟩ =
      .ok (aux || !(absentKeys ht.valueAt keys).isEmpty,
        (if aux || (absentKeys ht.valueAt keys).isEmpty then [] else ascii ['[']) ++
          (absentKeys ht.valueAt keys).flatMap fun key =>
            (missingEntryText key).take (maxStringSize - 1), shared) := by
  induction keys generalizing ht aux sent with
  | nil =>
    refine ⟨⟨ht, sent⟩, ?_⟩
    cases aux <;> rfl
  | cons key keys ih =>
    cases present : ht.lookup key.1 with
    | none =>
      have absent : ht.valueAt key = none := by rw [HashTable.valueAt, present, Option.map_none]
      obtain ⟨shared, later⟩ := ih wf true (sent ++ [])
      refine ⟨shared, ?_⟩
      simp only [List.map_cons, deleteKeys, deletePair_absent key present, bind, Except.bind, later]
      rw [absentKeys, if_pos absent]
      cases aux <;> rfl
    | some node =>
      have found : ht.valueAt key ≠ none := by
        rw [HashTable.valueAt, present]
        exact Option.some_ne_none _
      obtain ⟨table, called, kept, mapped⟩ := deletePair_present wf key present
      obtain ⟨shared, later⟩ := ih kept aux
        (sent ++ notifySubscribers node.subscribersFds key.1 deletedText)
      refine ⟨shared, ?_⟩
      rw [valueAt_deleted mapped] at later
      simp only [List.map_cons, deleteKeys, called, bind, Except.bind, later, ne_eq,
        not_true_eq_false, if_false]
      rw [absentKeys, if_neg found]

/-- **The reply to DELETE**: the entries of the keys absent at their turn, cut to the buffer. -/
theorem kvsDelete_eq {ht : HashTable} (wf : ht.WellFormed) (keys : List Key)
    (sent : List Notification) :
    ∃ shared, kvsDelete (keys.map Subtype.val) ⟨ht, sent⟩ =
      .ok (0, match absentKeys ht.valueAt keys with
        | [] => []
        | absent => ascii ['['] ++ (absent.flatMap fun key =>
            (missingEntryText key).take (maxStringSize - 1)) ++ closingText, shared) := by
  obtain ⟨shared, deleted⟩ := deleteKeys_reply wf keys false sent
  refine ⟨shared, ?_⟩
  rw [kvsDelete, deleted]
  cases absentKeys ht.valueAt keys <;> rfl

/-! ### When the replies are complete -/

/-- Every entry fits the buffer. -/
def EntriesFit (ht : HashTable) (keys : List Key) : Prop :=
  ∀ key ∈ keys, (∀ value ∈ ht.valueAt key, key.1.length + value.length ≤ 36) ∧
    (ht.valueAt key = none ∨ 1 < keys.count key → key.1.length ≤ 26)

theorem pairText_length (key value : List Byte) :
    (pairText key value).length = key.length + value.length + 3 := by
  simp [pairText, ascii]
  omega

/-- READ answers in full exactly when every entry fits. -/
theorem kvsRead_complete_iff (ht : HashTable) (keys : List Key) :
    (∀ sent, kvsRead (keys.map Subtype.val) ⟨ht, sent⟩ = .ok (0, readReply ht keys)) ↔
      ∀ key ∈ keys, (readText ht key).length ≤ maxStringSize - 1 := by
  rw [← flatMap_take_eq_iff]
  constructor
  · intro complete
    have same := (kvsRead_eq ht keys []).symm.trans (complete [])
    have bytes := congrArg Prod.snd (Except.ok.inj same)
    exact List.append_cancel_left (List.append_cancel_right bytes)
  · intro same sent
    rw [kvsRead_eq, same, readReply]

/-- DELETE answers in full exactly when the entry of every missing key fits. -/
theorem kvsDelete_complete_iff {ht : HashTable} (wf : ht.WellFormed) (keys : List Key) :
    (∀ sent, ∃ shared,
      kvsDelete (keys.map Subtype.val) ⟨ht, sent⟩ = .ok (0, deleteReply ht keys, shared)) ↔
      ∀ key ∈ absentKeys ht.valueAt keys, (missingEntryText key).length ≤ maxStringSize - 1 := by
  rw [← flatMap_take_eq_iff]
  have written := kvsDelete_eq wf keys
  unfold deleteReply
  cases missing : absentKeys ht.valueAt keys with
  | nil =>
    simp only [missing] at written ⊢
    exact ⟨fun _ => rfl, fun _ => written⟩
  | cons first others =>
    simp only [missing] at written ⊢
    constructor
    · intro complete
      obtain ⟨shared, called⟩ := complete []
      obtain ⟨shared', called'⟩ := written []
      have bytes := congrArg (fun result => result.2.1) (Except.ok.inj (called'.symm.trans called))
      exact List.append_cancel_left (List.append_cancel_right bytes)
    · intro same sent
      rw [← same]
      exact written sent

/-- The entries of READ and DELETE fit exactly when the strings are short enough. -/
theorem entriesFit_iff (ht : HashTable) (keys : List Key) :
    EntriesFit ht keys ↔
      (∀ key ∈ keys, (readText ht key).length ≤ maxStringSize - 1) ∧
      ∀ key ∈ absentKeys ht.valueAt keys, (missingEntryText key).length ≤ maxStringSize - 1 := by
  have error : errorText.length = 8 := rfl
  have missing : missingText.length = 10 := rfl
  simp only [readText, missingEntryText, pairText_length, missing, maxStringSize, mem_absentKeys]
  constructor
  · intro fits
    refine ⟨fun key member => ?_, ?_⟩
    · cases value : ht.valueAt key with
      | none =>
        have short := (fits key member).2 (.inl value)
        rw [Option.elim_none, error]
        unfold CStr.length at short
        omega
      | some value' =>
        have short := (fits key member).1 value' value
        rw [Option.elim_some]
        unfold CStr.length at short
        omega
    · rintro key ⟨member, absent⟩
      have short := (fits key member).2 absent
      unfold CStr.length at short
      omega
  · rintro ⟨read, delete⟩ key member
    refine ⟨fun value present => ?_, fun absent => ?_⟩
    · have short := read key member
      rw [Option.mem_def.mp present, Option.elim_some] at short
      unfold CStr.length
      omega
    · have short := delete key ⟨member, absent⟩
      unfold CStr.length
      omega

/-- **When READ and DELETE answer in full**: exactly when a key and its value have at most `36`
bytes together, and a key that is absent at some turn at most `26`. -/
theorem replies_complete_iff {ht : HashTable} (wf : ht.WellFormed) (keys : List Key) :
    RepliesComplete ht keys ↔ EntriesFit ht keys := by
  rw [entriesFit_iff, ← kvsRead_complete_iff, ← kvsDelete_complete_iff wf]
  constructor
  · exact fun complete => ⟨complete.read, complete.delete⟩
  · rintro ⟨read, delete⟩
    refine ⟨read, delete, fun before key _ inside => ?_⟩
    rw [absentKeys_snoc, if_pos (.inr inside)]

/-- READ and DELETE of a key that is there and one that is not, each named twice. -/
theorem replies_complete_named_twice :
    ∃ ht, writePair createHashTable keyA.1 valueAnna = .ok (0, ht, []) ∧
      ht.valueAt keyA = some valueAnna ∧ ht.valueAt keyAnna = none ∧
      RepliesComplete ht [keyA, keyAnna, keyA, keyAnna] := by
  have written : (StoreOp.writePair keyA valueAnna).exec createHashTable = .ok _ := rfl
  refine ⟨_, rfl, rfl, rfl, (replies_complete_iff (Run.nil.snoc written).wellFormed _).mpr ?_⟩
  unfold EntriesFit
  decide

/-! ### A key too long for its entry -/

/-- A key of `30` letters. -/
def longKey : Key := ⟨⟨ascii (List.replicate 30 'a'), by decide⟩, by decide⟩

theorem longKey_accepted : AcceptedDelete [longKey.1] :=
  ⟨List.cons_ne_nil _ _, ascii ['['] ++ longKey.1.bytes ++ ascii [']'] ++ [newline],
    by decide +kernel⟩

/-- The reply for an absent key of `30` letters is cut. -/
theorem longKey_not_complete :
    ¬ ∀ ht keys, HashTable.WellFormed ht → keys ≠ [] → AcceptedDelete (keys.map Subtype.val) →
      RepliesComplete ht keys := by
  intro complete
  have replies := complete createHashTable [longKey] createHashTable_wellFormed
    (List.cons_ne_nil _ _) longKey_accepted
  have written := replies.read []
  exact absurd written (by decide +kernel)

end Kvs.Server
