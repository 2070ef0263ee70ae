/-
**The store operations (`server/operations.c`).**

`Shared` is what the operations share: the table, and the notification frames written so far. The
table is the one `kvs_init` made: `main` calls it before any thread starts and `kvs_terminate` after
all have ended, so the `NULL` guards at the head of the functions never fire and are left out. The
lock is not part of this module: each function here is what runs between `pthread_rwlock_wrlock`
and `pthread_rwlock_unlock`, taken whole.

An operation that writes to its own output file returns the bytes it writes there. The text of a
line goes through a buffer of `MAX_STRING_SIZE` bytes: `snprintf` cuts it to one byte less, and the
backup child assembles it from four bounded copies.
-/

import Kvs.Server.Table

namespace Kvs.Server

/-- The table and the notifications sent, oldest first. -/
structure Shared where
  table : HashTable
  notified : List Notification
deriving DecidableEq

/-- `kvs_init`: the empty table, nothing sent. -/
def kvsInit : Shared := ⟨createHashTable, []⟩

/-! ### Text -/

/-- `snprintf(buffer, size, ...)` of a whole text: what a later `write_str` finds in the buffer. -/
def snprintf (size : ℕ) (text : List Byte) : List Byte := text.take (size - 1)

/-- `"KVSERROR"`. -/
def errorText : List Byte := ascii ['K', 'V', 'S', 'E', 'R', 'R', 'O', 'R']

/-- `"KVSMISSING"`. -/
def missingText : List Byte := ascii ['K', 'V', 'S', 'M', 'I', 'S', 'S', 'I', 'N', 'G']

/-- `"(%s,%s)"`. -/
def pairText (key value : List Byte) : List Byte :=
  ascii ['('] ++ key ++ ascii [','] ++ value ++ ascii [')']

/-- `"]\n"`. -/
def closingText : List Byte := ascii [']'] ++ [newline]

/-! ### WRITE, READ and DELETE -/

/-- The loop of `kvs_write`. -/
def writePairs : List (CStr × CStr) → Shared → Except Fault Shared
  | [], shared => .ok shared
  | (key, value) :: pairs, shared => do
    let (_, table, notified) ← writePair shared.table key value
    writePairs pairs ⟨table, shared.notified ++ notified⟩

/-- `kvs_write`. A failed `write_pair` would only be reported, and none fails. -/
def kvsWrite (pairs : List (CStr × CStr)) (shared : Shared) : Except Fault (Int × Shared) := do
  let shared ← writePairs pairs shared
  return (0, shared)

/-- One key of `kvs_read`: the text written for it. -/
def readEntry (table : HashTable) (key : CStr) : Except Fault (List Byte) := do
  let result ← readPair table key
  match result with
  | none => return snprintf maxStringSize (pairText key.bytes errorText)
  | some value => return snprintf maxStringSize (pairText key.bytes value.bytes)

/-- The loop of `kvs_read`. -/
def readEntries : List CStr → HashTable → Except Fault (List Byte)
  | [], _ => .ok []
  | key :: keys, table => do
    let entry ← readEntry table key
    let entries ← readEntries keys table
    return entry ++ entries

/-- `kvs_read`, with the bytes written to `fd`. -/
def kvsRead (keys : List CStr) (shared : Shared) : Except Fault (Int × List Byte) := do
  let entries ← readEntries keys shared.table
  return (0, ascii ['['] ++ entries ++ closingText)

/-- The entry `kvs_delete` writes for a key it did not find. -/
def missingEntry (key : CStr) : List Byte := snprintf maxStringSize (pairText key.bytes missingText)

/-- The loop of `kvs_delete`; `aux` says that the opening bracket is written. -/
def deleteKeys : List CStr → Bool → Shared → Except Fault (Bool × List Byte × Shared)
  | [], aux, shared => .ok (aux, [], shared)
  | key :: keys, aux, shared => do
    let (code, table, notified) ← deletePair shared.table key
    let shared := ⟨table, shared.notified ++ notified⟩
    if code ≠ 0 then
      let (aux', out, shared) ← deleteKeys keys true shared
      return (aux', (if aux then [] else ascii ['[']) ++ missingEntry key ++ out, shared)
    else deleteKeys keys aux shared

/-- `kvs_delete`, with the bytes written to `fd`. -/
def kvsDelete (keys : List CStr) (shared : Shared) : Except Fault (Int × List Byte × Shared) := do
  let (aux, out, shared) ← deleteKeys keys false shared
  return (0, out ++ (if aux then closingText else []), shared)

/-! ### SHOW and BACKUP -/

/-- The nodes in the order of the two nested loops: bucket by bucket, along each chain. -/
def HashTable.nodes (table : HashTable) : List KeyNode :=
  (List.finRange tableSize).flatMap table.table

/-- The line `kvs_show` writes for a node, `"(%s, %s)\n"`. -/
def showLine (node : KeyNode) : List Byte :=
  snprintf maxStringSize (ascii ['('] ++ node.key.bytes ++ ascii [',', ' '] ++ node.value.bytes ++
    ascii [')'] ++ [newline])

/-- `kvs_show`, the bytes written to `fd`. -/
def kvsShow (table : HashTable) : List Byte := table.nodes.flatMap showLine

/-- Subtraction of `size_t`. -/
def sizeSub (first second : ℕ) : ℕ := (first + 2 ^ 64 - second) % 2 ^ 64

/-- `strn_memcpy(aux + strlen, src, MAX_STRING_SIZE - num_bytes_copied - 1)`: the bytes already in
`aux`, followed by the ones copied. -/
def appendPiece (aux src : List Byte) : List Byte :=
  aux ++ src.take (sizeSub (sizeSub maxStringSize aux.length) 1)

/-- The line the backup child writes for a node. -/
def backupLine (node : KeyNode) : List Byte :=
  let aux := ascii ['(']
  let aux := appendPiece aux node.key.bytes
  let aux := appendPiece aux (ascii [',', ' '])
  let aux := appendPiece aux node.value.bytes
  appendPiece aux (ascii [')'] ++ [newline])

/-- What the child of `kvs_backup` writes, given the table `fork` copied. -/
def backupContent (table : HashTable) : List Byte := table.nodes.flatMap backupLine

/-- `kvs_backup`: `-1` when `fork` fails; otherwise the child writes the copy of the table. The
child's `open` is taken to succeed: one that fails leaves it in `write_str(-1)` for ever, with no
content to speak of. -/
def kvsBackup (forks : Bool) (table : HashTable) : Int × Option (List Byte) :=
  if forks then (0, some (backupContent table)) else (-1, none)

/-! ### WAIT -/

/-- `struct timespec`. -/
structure Timespec where
  tvSec : Int
  tvNsec : Int
deriving DecidableEq

/-- `delay_to_timespec`; the arithmetic is that of `unsigned int`. -/
def delayToTimespec (delayMs : UInt32) : Timespec :=
  ⟨(delayMs / 1000).toNat, (delayMs % 1000 * 1000000).toNat⟩

/-- `kvs_wait`: the time `nanosleep` is asked to sleep. -/
def kvsWait (delayMs : UInt32) : Timespec := delayToTimespec delayMs

/-! ### Subscriptions -/

/-- `subscribe`. -/
def subscribe (key : CStr) (fd : Fd) (table : HashTable) : Except Fault (Byte × HashTable) := do
  let (code, table) ← writeSubscription table key fd
  return (if code ≠ 0 then '0'.toUInt8 else '1'.toUInt8, table)

/-- `unsubscribe`. -/
def unsubscribe (key : CStr) (fd : Fd) (table : HashTable) : Except Fault (Byte × HashTable) := do
  let (code, table) ← deleteSubscription table key fd
  return (if code ≠ 0 then '1'.toUInt8 else '0'.toUInt8, table)

/-- The inner loop of `disconnect` on one node. -/
def KeyNode.dropSubscriber (fd : Fd) (node : KeyNode) : KeyNode :=
  { node with subscribersFds := node.subscribersFds.remove fd }

/-- The inner loop of `disconnect_all` on one node. -/
def KeyNode.dropSubscribers (node : KeyNode) : KeyNode :=
  { node with subscribersFds := Slots.empty }

/-- `disconnect`. -/
def disconnect (fd : Fd) (table : HashTable) : Byte × HashTable :=
  ('0'.toUInt8, table.mapNodes (KeyNode.dropSubscriber fd))

/-- `disconnect_all`. -/
def disconnectAll (table : HashTable) : Int × HashTable :=
  (0, table.mapNodes KeyNode.dropSubscribers)

end Kvs.Server
