/-
**What a backup file keeps.**

The child of `kvs_backup` writes one line for every node, assembled in a buffer of `MAX_STRING_SIZE`
bytes: the size of one key. `fullLine` is the line it is after, `"(key, value)\n"`, and `recover`
reads pairs back from a file of such lines. The parsers let a key or a value have `39` bytes each,
so a line may need `83`.

* `backupLine_eq`: what is written for a node is its full line, cut after `39` bytes.
* `backup_agrees_with_show`: `kvs_show` cuts the same line at the same byte, so the two write the
  same; no copy of the child runs past its buffer.
* `reachable_plain`: the strings of a table filled by accepted commands have no delimiter in them,
  so a file of full lines can be read back.
* `backup_keepsAll_iff`: a backup keeps everything exactly when no full line is longer than `39`
  bytes.
-/

import Kvs.Server.ParserFrame

namespace Kvs.Server

open Scanner.Scan (read store Gives gives_bind gives_bind_any gives_ite gives_pure)

/-! ### The lines -/

/-- `"(key, value)\n"`. -/
def fullLine (node : KeyNode) : List Byte :=
  ascii ['('] ++ node.key.bytes ++ ascii [',', ' '] ++ node.value.bytes ++
    (ascii [')'] ++ [newline])

theorem fullLine_length (node : KeyNode) :
    (fullLine node).length = node.key.length + node.value.length + 5 := by
  simp [fullLine, ascii, CStr.length]
  omega

theorem sizeSub_room {used : ℕ} (fits : used < maxStringSize) :
    sizeSub (sizeSub maxStringSize used) 1 = maxStringSize - 1 - used := by
  unfold sizeSub maxStringSize at *
  omega

/-- A copy never takes the buffer past its last byte but one. -/
theorem appendPiece_take (text src : List Byte) :
    appendPiece (text.take (maxStringSize - 1)) src = (text ++ src).take (maxStringSize - 1) := by
  have short : (text.take (maxStringSize - 1)).length < maxStringSize := by
    simp [maxStringSize]
  rw [appendPiece, sizeSub_room short, List.take_append, List.length_take]
  congr 2
  omega

/-- **The line written** is the full line, cut so that the NUL still fits the buffer. -/
theorem backupLine_eq (node : KeyNode) :
    backupLine node = (fullLine node).take (maxStringSize - 1) := by
  have start : ascii ['('] = (ascii ['(']).take (maxStringSize - 1) := by decide
  unfold backupLine fullLine
  rw [start]
  simp only [appendPiece_take]
  rw [← start]

/-- The line of a listing is the same line, cut by `snprintf`. -/
theorem showLine_eq (node : KeyNode) :
    showLine node = (fullLine node).take (maxStringSize - 1) := by
  unfold showLine snprintf fullLine
  rw [List.append_assoc _ (ascii [')'])]

/-! ### The copies of the backup child -/

/-- What the four `strn_memcpy` calls copy, in order. -/
def backupPieces (node : KeyNode) : List (List Byte) :=
  [node.key.bytes, ascii [',', ' '], node.value.bytes, ascii [')'] ++ [newline]]

/-- What `aux` holds after these copies. -/
def backupBuffer (copied : List (List Byte)) : List Byte := copied.foldl appendPiece (ascii ['('])

theorem backupLine_eq_buffer (node : KeyNode) :
    backupLine node = backupBuffer (backupPieces node) := rfl

/-- Whatever is copied, a byte stays free for the NUL. -/
theorem backupBuffer_length (copied : List (List Byte)) :
    (backupBuffer copied).length < maxStringSize := by
  have kept : ∃ text : List Byte, backupBuffer copied = text.take (maxStringSize - 1) := by
    induction copied using List.reverseRecOn with
    | nil => exact ⟨ascii ['('], by decide⟩
    | append_singleton copied src ih =>
      obtain ⟨text, before⟩ := ih
      refine ⟨text ++ src, ?_⟩
      rw [backupBuffer, List.foldl_append, ← backupBuffer, before]
      exact appendPiece_take text src
  obtain ⟨text, same⟩ := kept
  rw [same, List.length_take]
  exact lt_of_le_of_lt (min_le_left _ _) (by decide)

/-- **BACKUP agrees with SHOW**: the child writes what `kvs_show` writes, the room it passes to each
`strn_memcpy` is the one left in the buffer, and the NUL it adds lies inside. -/
theorem backup_agrees_with_show (table : HashTable) :
    backupContent table = kvsShow table ∧
      ∀ node ∈ table.nodes,
        (∀ copied src, copied ++ [src] <+: backupPieces node →
          (sizeSub (sizeSub maxStringSize (backupBuffer copied).length) 1 : ℤ) =
            maxStringSize - (backupBuffer copied).length - 1) ∧
        (backupLine node).length < maxStringSize := by
  refine ⟨?_, fun node _ => ⟨fun copied _ _ => ?_, ?_⟩⟩
  · unfold backupContent kvsShow
    exact congrArg (table.nodes.flatMap ·)
      (funext fun node => (backupLine_eq node).trans (showLine_eq node).symm)
  · have room := backupBuffer_length copied
    rw [sizeSub_room room]
    omega
  · rw [backupLine_eq_buffer]
    exact backupBuffer_length (backupPieces node)

/-! ### Cutting every piece -/

/-- Cutting every piece changes nothing exactly when no piece is too long. -/
theorem flatMap_take_eq_iff {α β : Type} (size : ℕ) (piece : α → List β) (items : List α) :
    (items.flatMap fun item => (piece item).take size) = items.flatMap piece ↔
      ∀ item ∈ items, (piece item).length ≤ size := by
  induction items with
  | nil => simp
  | cons item items ih =>
    rw [List.flatMap_cons, List.flatMap_cons, List.forall_mem_cons, ← ih]
    constructor
    · intro same
      have shorter : (items.flatMap fun item => (piece item).take size).length ≤
          (items.flatMap piece).length := by
        rw [List.length_flatMap, List.length_flatMap]
        exact List.sum_le_sum fun item _ => List.length_take_le' size (piece item)
      have lengths := congrArg List.length same
      rw [List.length_append, List.length_append, List.length_take] at lengths
      have fits : (piece item).length ≤ size := by omega
      rw [List.take_of_length_le fits] at same
      exact ⟨fits, List.append_cancel_left same⟩
    · rintro ⟨fits, rest⟩
      rw [List.take_of_length_le fits, rest]

/-! ### Reading a backup file -/

/-- Where the reader of a backup file is. -/
inductive BackupPlace where
  | outside
  | inKey (key : List Byte)
  | beforeValue (key : List Byte)
  | inValue (key value : List Byte)
deriving DecidableEq

/-- The reader of a backup file: the pairs read so far, and where it is. -/
structure BackupReader where
  pairs : List (List Byte × List Byte)
  place : BackupPlace
deriving DecidableEq

/-- Read one byte. -/
def BackupReader.next (reader : BackupReader) (byte : Byte) : BackupReader :=
  match reader.place with
  | .outside => if byte = '('.toUInt8 then { reader with place := .inKey [] } else reader
  | .inKey key =>
    if byte = ','.toUInt8 then { reader with place := .beforeValue key }
    else { reader with place := .inKey (key ++ [byte]) }
  | .beforeValue key => { reader with place := .inValue key [] }
  | .inValue key value =>
    if byte = ')'.toUInt8 then ⟨reader.pairs ++ [(key, value)], .outside⟩
    else { reader with place := .inValue key (value ++ [byte]) }

/-- The pairs a backup file holds. -/
def recover (file : List Byte) : List (List Byte × List Byte) :=
  (file.foldl BackupReader.next ⟨[], .outside⟩).pairs

theorem next_inKey {byte : Byte} (different : ¬ ','.toUInt8 = byte)
    (pairs : List (List Byte × List Byte)) (key : List Byte) :
    BackupReader.next ⟨pairs, .inKey key⟩ byte = ⟨pairs, .inKey (key ++ [byte])⟩ :=
  if_neg (Ne.symm different)

theorem next_inValue {byte : Byte} (different : ¬ ')'.toUInt8 = byte)
    (pairs : List (List Byte × List Byte)) (key value : List Byte) :
    BackupReader.next ⟨pairs, .inValue key value⟩ byte =
      ⟨pairs, .inValue key (value ++ [byte])⟩ :=
  if_neg (Ne.symm different)

theorem foldl_inKey {key : List Byte} (noComma : ','.toUInt8 ∉ key)
    (pairs : List (List Byte × List Byte)) (got : List Byte) :
    key.foldl BackupReader.next ⟨pairs, .inKey got⟩ = ⟨pairs, .inKey (got ++ key)⟩ := by
  induction key generalizing got with
  | nil => simp
  | cons byte key ih =>
    obtain ⟨different, later⟩ := not_or.mp (List.mem_cons.not.mp noComma)
    rw [List.foldl_cons, next_inKey different, ih later, List.append_assoc,
      List.singleton_append]

theorem foldl_inValue {value : List Byte} (noBracket : ')'.toUInt8 ∉ value)
    (pairs : List (List Byte × List Byte)) (key got : List Byte) :
    value.foldl BackupReader.next ⟨pairs, .inValue key got⟩ =
      ⟨pairs, .inValue key (got ++ value)⟩ := by
  induction value generalizing got with
  | nil => simp
  | cons byte value ih =>
    obtain ⟨different, later⟩ := not_or.mp (List.mem_cons.not.mp noBracket)
    rw [List.foldl_cons, next_inValue different, ih later, List.append_assoc,
      List.singleton_append]

/-- The key has no comma in it and the value no closing bracket. -/
def KeyNode.Plain (node : KeyNode) : Prop :=
  ','.toUInt8 ∉ node.key.bytes ∧ ')'.toUInt8 ∉ node.value.bytes

/-- The strings of a node. -/
def KeyNode.pair (node : KeyNode) : List Byte × List Byte := (node.key.bytes, node.value.bytes)

/-- A full line is read as one pair. -/
theorem foldl_fullLine {node : KeyNode} (plain : node.Plain)
    (pairs : List (List Byte × List Byte)) :
    (fullLine node).foldl BackupReader.next ⟨pairs, .outside⟩ =
      ⟨pairs ++ [node.pair], .outside⟩ := by
  have opened : (ascii ['(']).foldl BackupReader.next ⟨pairs, .outside⟩ = ⟨pairs, .inKey []⟩ := rfl
  have crossed : ∀ key, (ascii [',', ' ']).foldl BackupReader.next ⟨pairs, .inKey key⟩ =
      ⟨pairs, .inValue key []⟩ := fun _ => rfl
  simp only [fullLine, List.foldl_append, opened, foldl_inKey plain.1, crossed,
    foldl_inValue plain.2]
  rfl

/-- **A file of full lines gives its pairs back.** -/
theorem recover_fullLines {nodes : List KeyNode} (plain : ∀ node ∈ nodes, node.Plain) :
    recover (nodes.flatMap fullLine) = nodes.map KeyNode.pair := by
  have read : ∀ pairs, (nodes.flatMap fullLine).foldl BackupReader.next ⟨pairs, .outside⟩ =
      ⟨pairs ++ nodes.map KeyNode.pair, .outside⟩ := by
    induction nodes with
    | nil => simp
    | cons node nodes ih =>
      intro pairs
      obtain ⟨here, later⟩ := List.forall_mem_cons.mp plain
      rw [List.flatMap_cons, List.foldl_append, foldl_fullLine here, ih later, List.map_cons,
        List.append_assoc, List.singleton_append]
  rw [recover, read, List.nil_append]

/-! ### What the parsers accept -/

/-- The bytes that end a string of a job file. -/
def delimiters : List Byte := ascii [' ', ',', ')', ']']

/-- No byte of the string ends it. -/
def Undelimited (bytes : List Byte) : Prop := ∀ byte ∈ bytes, byte ∉ delimiters

theorem readString_undelimited (capacity max : ℕ) :
    Gives (readString capacity max) fun outcome => Undelimited outcome.2 := by
  have loop : ∀ room buffer, Undelimited buffer →
      Gives (readStringLoop capacity room buffer) fun outcome => Undelimited outcome.2 := by
    intro room
    induction room with
    | zero => exact fun buffer good => gives_bind_any fun _ => gives_pure good
    | succ room ih =>
      intro buffer good
      refine gives_bind_any fun bytesRead => ?_
      cases bytesRead with
      | nil => exact gives_pure good
      | cons ch rest =>
        -- each delimiter ends the string; any other byte joins it
        show Gives (if ch = ' '.toUInt8 then _ else _) _
        split
        · exact gives_pure good
        · split
          · exact gives_bind_any fun _ => gives_pure good
          · split
            · exact gives_bind_any fun _ => gives_pure good
            · split
              · exact gives_bind_any fun _ => gives_pure good
              · refine gives_bind_any fun _ => ih _ fun byte member => ?_
                rcases List.mem_append.mp member with member | member
                · exact good byte member
                · obtain rfl := List.mem_singleton.mp member
                  simp_all [delimiters]
  exact loop max [] fun byte member => absurd member List.not_mem_nil

/-- The string copied out of a buffer is a front of it. -/
theorem ofBuffer_undelimited {buffer : List Byte} (good : Undelimited buffer) :
    Undelimited (CStr.ofBuffer buffer).bytes :=
  fun byte member => good byte ((List.takeWhile_prefix _).subset member)

theorem copyRow_undelimited {buffer : List Byte} (good : Undelimited buffer) :
    Gives (copyRow buffer) fun str => Undelimited str.bytes :=
  gives_bind_any fun _ => gives_pure (ofBuffer_undelimited good)

/-- The strings of a pair. -/
def UndelimitedPair (pair : CStr × CStr) : Prop :=
  Undelimited pair.1.bytes ∧ Undelimited pair.2.bytes

theorem parsePair_undelimited (capacity : ℕ) :
    Gives (parsePair capacity) fun outcome =>
      ∀ pair ∈ outcome, Undelimited pair.1 ∧ Undelimited pair.2 := by
  have cleaned : Gives (cleanupWith (none : Option (List Byte × List Byte))) fun outcome =>
      ∀ pair ∈ outcome, Undelimited pair.1 ∧ Undelimited pair.2 := gives_cleanupWith (by simp)
  refine gives_bind (readString_undelimited _ _) fun key goodKey => ?_
  refine gives_ite cleaned ?_
  refine gives_bind (readString_undelimited _ _) fun value goodValue => ?_
  exact gives_ite cleaned (gives_pure (by simpa using ⟨goodKey, goodValue⟩))

theorem parseEnd_gives {α : Type} (max : ℕ) {items : List α} {good : α → Prop}
    (all : ∀ item ∈ items, good item) :
    Gives (parseEnd max items) fun items => ∀ item ∈ items, good item := by
  have cleaned : Gives (cleanupWith ([] : List α)) fun items => ∀ item ∈ items, good item :=
    gives_cleanupWith (by simp)
  exact gives_ite cleaned (gives_bind_any fun _ => gives_ite (gives_pure all) cleaned)

theorem parseWrite_undelimited (maxPairs stringSize : ℕ) :
    Gives (parseWrite maxPairs stringSize) fun pairs => ∀ pair ∈ pairs, UndelimitedPair pair := by
  have cleaned : Gives (cleanupWith ([] : List (CStr × CStr))) fun pairs =>
      ∀ pair ∈ pairs, UndelimitedPair pair := gives_cleanupWith (by simp)
  have loop : ∀ room pairs, (∀ pair ∈ pairs, UndelimitedPair pair) →
      Gives (parseWriteLoop stringSize room pairs) fun outcome =>
        ∀ pairs ∈ outcome, ∀ pair ∈ pairs, UndelimitedPair pair := by
    intro room
    induction room with
    | zero => exact fun pairs good => gives_pure (by simpa using good)
    | succ room ih =>
      intro pairs good
      have stopped : Gives (cleanupWith (none : Option (List (CStr × CStr)))) fun outcome =>
          ∀ pairs ∈ outcome, ∀ pair ∈ pairs, UndelimitedPair pair := gives_cleanupWith (by simp)
      refine gives_bind (parsePair_undelimited stringSize) fun pair goodPair => ?_
      cases pair with
      | none => exact stopped
      | some pair =>
        obtain ⟨goodKey, goodValue⟩ := goodPair pair rfl
        refine gives_bind (copyRow_undelimited goodKey) fun key goodKey => ?_
        refine gives_bind (copyRow_undelimited goodValue) fun value goodValue => ?_
        have more : ∀ pair ∈ pairs ++ [(key, value)], UndelimitedPair pair := by
          intro pair member
          rcases List.mem_append.mp member with member | member
          · exact good pair member
          · obtain rfl := List.mem_singleton.mp member
            exact ⟨goodKey, goodValue⟩
        refine gives_bind_any fun ch => ?_
        exact gives_ite (ih _ more) (gives_ite (gives_pure (by simpa using more)) stopped)
  refine gives_bind_any fun _ => gives_ite cleaned ?_
  refine gives_bind_any fun _ => gives_ite cleaned ?_
  refine gives_bind (loop maxPairs [] (by simp)) fun outcome good => ?_
  cases outcome with
  | none => exact gives_pure (by simp)
  | some pairs => exact parseEnd_gives maxPairs (good pairs rfl)

/-! ### Reachable tables -/

/-- The pairs of a WRITE command that `parse_write` accepts. -/
def AcceptedWrite (pairs : List (CStr × CStr)) : Prop :=
  pairs ≠ [] ∧ ∃ file, (parseWrite maxWriteSize maxStringSize file).val = pairs

/-- The keys of a DELETE command that `parse_read_delete` accepts. -/
def AcceptedDelete (keys : List CStr) : Prop :=
  keys ≠ [] ∧ ∃ file, (parseReadDelete maxWriteSize maxStringSize file).val = keys

/-- The tables accepted WRITE and DELETE commands lead to. A key that starts with neither a letter
nor a digit has no bucket: its command does not return. -/
inductive Reachable : HashTable → Prop where
  | created : Reachable createHashTable
  | write {table : HashTable} {pairs : List (CStr × CStr)} {code : Int} {shared : Shared}
      (reached : Reachable table) (accepted : AcceptedWrite pairs)
      (called : kvsWrite pairs ⟨table, []⟩ = .ok (code, shared)) : Reachable shared.table
  | delete {table : HashTable} {keys : List CStr} {code : Int} {out : List Byte} {shared : Shared}
      (reached : Reachable table) (accepted : AcceptedDelete keys)
      (called : kvsDelete keys ⟨table, []⟩ = .ok (code, out, shared)) : Reachable shared.table

/-- A table that is reachable. -/
abbrev ReachableTable := { table : HashTable // Reachable table }

/-- Every node of the table is plain. -/
def HashTable.Plain (ht : HashTable) : Prop := ∀ index, ∀ node ∈ ht.table index, node.Plain

theorem writePair_plain {ht table : HashTable} {key value : CStr} {code : Int}
    {sent : List Notification} (plain : ht.Plain) (good : UndelimitedPair (key, value))
    (called : writePair ht key value = .ok (code, table, sent)) : table.Plain := by
  have comma : ','.toUInt8 ∉ key.bytes := fun member => good.1 _ member (by decide)
  have bracket : ')'.toUInt8 ∉ value.bytes := fun member => good.2 _ member (by decide)
  obtain ⟨index, -, called⟩ := bind_ok_inv called
  cases visited : visitKey key (KeyNode.overwrite key value) (ht.table index) with
  | none =>
    rw [visited] at called
    cases called
    have created : ∀ node ∈ (⟨key, value, Slots.empty⟩ : KeyNode) :: ht.table index, node.Plain :=
      List.forall_mem_cons.mpr ⟨⟨comma, bracket⟩, plain index⟩
    exact HashTable.setChain_forall plain index created
  | some outcome =>
    rw [visited] at called
    cases called
    refine HashTable.setChain_forall plain index ?_
    refine ChainedTable.visit_forall ?_ visited (plain index)
    intro node kept plainNode stays
    cases stays
    exact ⟨plainNode.1, bracket⟩

theorem deletePair_plain {ht table : HashTable} {key : CStr} {code : Int}
    {sent : List Notification} (plain : ht.Plain)
    (called : deletePair ht key = .ok (code, table, sent)) : table.Plain := by
  obtain ⟨index, -, called⟩ := bind_ok_inv called
  cases visited : visitKey key (KeyNode.unlink key) (ht.table index) with
  | none =>
    rw [visited] at called
    cases called
    exact plain
  | some outcome =>
    rw [visited] at called
    cases called
    refine HashTable.setChain_forall plain index ?_
    refine ChainedTable.visit_forall ?_ visited (plain index)
    intro node kept _ stays
    cases stays

theorem writePairs_plain {pairs : List (CStr × CStr)} {shared shared' : Shared}
    (plain : shared.table.Plain) (good : ∀ pair ∈ pairs, UndelimitedPair pair)
    (called : writePairs pairs shared = .ok shared') : shared'.table.Plain := by
  induction pairs generalizing shared with
  | nil => cases called; exact plain
  | cons pair pairs ih =>
    obtain ⟨goodPair, goodPairs⟩ := List.forall_mem_cons.mp good
    obtain ⟨outcome, written, called⟩ := bind_ok_inv called
    exact ih (writePair_plain plain goodPair written) goodPairs called

theorem deleteKeys_plain {keys : List CStr} {aux : Bool} {shared : Shared}
    {outcome : Bool × List Byte × Shared} (plain : shared.table.Plain)
    (called : deleteKeys keys aux shared = .ok outcome) : outcome.2.2.table.Plain := by
  induction keys generalizing aux shared outcome with
  | nil => cases called; exact plain
  | cons key keys ih =>
    obtain ⟨⟨code, table, notified⟩, deleted, called⟩ := bind_ok_inv called
    have left := deletePair_plain plain deleted
    dsimp only at called
    split at called
    · obtain ⟨later, deletedLater, called⟩ := bind_ok_inv called
      have kept := ih left deletedLater
      cases called
      exact kept
    · exact ih left called

/-- **No string of a reachable table is delimited.** -/
theorem reachable_plain {table : HashTable} (reachable : Reachable table) : table.Plain := by
  induction reachable with
  | created => exact fun _ _ member => absurd member List.not_mem_nil
  | @write table pairs code shared reached accepted called ih =>
    obtain ⟨_, file, rfl⟩ := accepted
    obtain ⟨shared', written, called⟩ := bind_ok_inv called
    cases called
    exact writePairs_plain ih (parseWrite_undelimited _ _ file) written
  | @delete table keys code out shared reached accepted called ih =>
    obtain ⟨outcome, deleted, called⟩ := bind_ok_inv called
    cases called
    exact deleteKeys_plain ih deleted

/-! ### What is kept -/

/-- The backup is the concatenation of the full lines, and gives every pair back. -/
def KeepsAll (table : HashTable) : Prop :=
  backupContent table = table.nodes.flatMap fullLine ∧
    recover (backupContent table) = table.nodes.map KeyNode.pair

/-- A key of `20` bytes and a value of `15`. -/
def longPair : CStr × CStr :=
  (⟨ascii (List.replicate 20 'a'), by decide⟩, ⟨ascii (List.replicate 15 'b'), by decide⟩)

/-- The table the command that writes this pair leads to. -/
def longPairTable : ReachableTable where
  val := createHashTable.setChain ⟨0, by decide⟩ [⟨longPair.1, longPair.2, Slots.empty⟩]
  property := @Reachable.write createHashTable [longPair] 0 ⟨_, []⟩ .created
    ⟨List.cons_ne_nil longPair [], ascii ['[', '('] ++ longPair.1.bytes ++ ascii [','] ++
      longPair.2.bytes ++ ascii [')', ']'] ++ [newline], by decide +kernel⟩ rfl

/-- Their line needs `40` bytes: the newline is lost. -/
theorem longPair_not_keepsAll : ¬ KeepsAll longPairTable.1 := by
  intro keeps
  exact absurd keeps.1 (by decide +kernel)

/-- **When a backup keeps everything**: exactly when the key and the value of every node are at most
`34` bytes together. -/
theorem backup_keepsAll_iff (table : ReachableTable) :
    KeepsAll table.1 ↔ ∀ node ∈ table.1.nodes, node.key.length + node.value.length ≤ 34 := by
  have content : backupContent table.1 =
      table.1.nodes.flatMap fun node => (fullLine node).take (maxStringSize - 1) :=
    congrArg (table.1.nodes.flatMap ·) (funext backupLine_eq)
  have short : (∀ node ∈ table.1.nodes, (fullLine node).length ≤ maxStringSize - 1) ↔
      ∀ node ∈ table.1.nodes, node.key.length + node.value.length ≤ 34 := by
    refine forall₂_congr fun node _ => ?_
    rw [fullLine_length, maxStringSize]
    omega
  rw [← short, ← flatMap_take_eq_iff, ← content]
  constructor
  · exact fun keeps => keeps.1
  · intro complete
    refine ⟨complete, ?_⟩
    rw [complete]
    refine recover_fullLines fun node member => ?_
    obtain ⟨index, _, inside⟩ := List.mem_flatMap.mp member
    exact reachable_plain table.2 index node inside

end Kvs.Server
