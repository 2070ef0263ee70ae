/-
**The hash table (`server/kvs.c`).**

A table is `TABLE_SIZE` chains of nodes; a node has a key, a value and one subscriber slot per
possible client, `0` being an empty slot. Every function hashes the key, walks the chain of that
bucket and acts on the first node with the key. `hash` answers `-1` for a key that starts with
anything but a letter or a digit, and no function looks at that answer: `HashTable.bucket` is the
array access `ht->table[index]`, and an index outside the array is a `Fault` that ends the run.

The functions return what the C functions return, the table after the call, and the notifications
handed to `write_all` in order. `malloc` and `strdup` are taken to succeed. The strings of the
operations come from rows of `MAX_STRING_SIZE` bytes and fit `str`; longer ones may overrun it,
which `Notification.frame` marks, and then what the function returns is not what happens: `framed`
ends the run there.
-/

import Kvs.Basic
import Kvs.Lib.ChainedTable

namespace Kvs.Server

/-- An array access outside its array. -/
inductive Fault where
  /-- `ht->table[index]`. -/
  | bucket (index : Int)
  /-- `active_clients[index]`. -/
  | activeClient (index : ℕ)
  /-- `str` in the notification loops. -/
  | frame
  /-- A buffer of the job file parser. -/
  | buffer
deriving DecidableEq

/-- A call that ends in a value, and what is made of it. -/
theorem map_ok_inv {α β : Type} {call : Except Fault α} {make : α → β} {value : β}
    (mapped : call.map make = .ok value) : ∃ made, call = .ok made ∧ make made = value := by
  cases call with
  | error fault => cases mapped
  | ok made => exact ⟨made, rfl, Except.ok.inj mapped⟩

/-- Two calls in sequence that end in a value. -/
theorem bind_ok_inv {α β : Type} {first : Except Fault α} {second : α → Except Fault β} {value : β}
    (bound : (first >>= second) = .ok value) :
    ∃ middle, first = .ok middle ∧ second middle = .ok value := by
  cases first with
  | error fault => cases bound
  | ok middle => exact ⟨middle, rfl, bound⟩

/-! ### Hashing -/

/-- `tolower` in the C locale. -/
def tolower (char : ℕ) : ℕ := if 65 ≤ char ∧ char ≤ 90 then char + 32 else char

/-- `hash`: the bucket of a key's first character, `-1` when it is no letter or digit. -/
def hash (key : CStr) : Int :=
  let firstLetter := tolower key.first.toNat
  if 97 ≤ firstLetter ∧ firstLetter ≤ 122 then (firstLetter : Int) - 97
  else if 48 ≤ firstLetter ∧ firstLetter ≤ 57 then (firstLetter : Int) - 48
  else -1

/-- A key's first character is an ASCII letter or digit. -/
def startsAlnum (key : CStr) : Prop := isLetterOrDigit key.first

instance (key : CStr) : Decidable (startsAlnum key) :=
  inferInstanceAs (Decidable (isLetterOrDigit key.first))

/-- A key's hash is a bucket index when the key starts with a letter or digit. -/
theorem hash_bounds {key : CStr} (alnum : startsAlnum key) :
    0 ≤ hash key ∧ hash key < tableSize := by
  unfold startsAlnum isLetterOrDigit at alnum
  unfold hash tolower tableSize
  simp only
  split_ifs <;> omega

/-- Every other key hashes to `-1`. -/
theorem hash_of_not_startsAlnum {key : CStr} (other : ¬ startsAlnum key) : hash key = -1 := by
  unfold startsAlnum isLetterOrDigit at other
  unfold hash tolower
  simp only
  split_ifs <;> omega

/-! ### Nodes and tables -/

/-- `int subscribers_fds[MAX_CLIENTS]`. -/
structure Slots where
  fds : List Fd
  length_eq : fds.length = maxClients
deriving DecidableEq

namespace Slots

/-- Every slot empty. -/
def empty : Slots := ⟨List.replicate maxClients 0, List.length_replicate⟩

/-- Store `new` in the first slot that holds `old`; `none` when no slot does. -/
def exchange (slots : Slots) (old new : Fd) : Option Slots :=
  if old ∈ slots.fds then
    some ⟨slots.fds.replace old new, by rw [List.length_replace, slots.length_eq]⟩
  else none

/-- Empty every slot that holds `fd`. -/
def remove (slots : Slots) (fd : Fd) : Slots :=
  ⟨slots.fds.map fun slot => if slot = fd then 0 else slot,
    by rw [List.length_map, slots.length_eq]⟩

/-- The descriptors in use, in slot order. -/
def occupied (slots : Slots) : List Fd := slots.fds.filter (· ≠ 0)

end Slots

/-- `struct KeyNode`, without its `next` pointer: a chain is a list of nodes. -/
structure KeyNode where
  key : CStr
  value : CStr
  subscribersFds : Slots
deriving DecidableEq

/-- `struct HashTable`, without its lock. -/
structure HashTable where
  table : Fin tableSize → List KeyNode
deriving DecidableEq

namespace HashTable

/-- The array access `ht->table[index]`, as far as the index goes. -/
def bucket (index : Int) : Except Fault (Fin tableSize) :=
  if inside : 0 ≤ index ∧ index < tableSize then .ok ⟨index.toNat, by omega⟩
  else .error (.bucket index)

/-- The table with one chain replaced. -/
def setChain (ht : HashTable) (index : Fin tableSize) (chain : List KeyNode) : HashTable :=
  ⟨Function.update ht.table index chain⟩

/-- What holds of every node, and of those of the new chain, holds of every node afterwards. -/
theorem setChain_forall {good : KeyNode → Prop} {ht : HashTable}
    (all : ∀ index, ∀ node ∈ ht.table index, good node) (index : Fin tableSize)
    {chain : List KeyNode} (inChain : ∀ node ∈ chain, good node) :
    ∀ other, ∀ node ∈ (ht.setChain index chain).table other, good node := by
  intro other
  show ∀ node ∈ Function.update ht.table index chain other, good node
  by_cases same : other = index
  · subst same
    rw [Function.update_self]
    exact inChain
  · rw [Function.update_of_ne same]
    exact all other

end HashTable

/-- `create_hash_table`. -/
def createHashTable : HashTable := ⟨fun _ => []⟩

/-! ### Notifications -/

/-- One call of `write_all` on a subscriber's descriptor. -/
structure Notification where
  fd : Fd
  /-- The bytes handed over, `none` when the copies into `str` overran it. -/
  frame : Option (List Byte)
deriving DecidableEq

/-- `strncpy(buffer + offset, src, strlen(src))`; `none` when it writes past the buffer. -/
def copyInto (buffer : List Byte) (offset : ℕ) (src : CStr) : Option (List Byte) :=
  if offset + src.length ≤ buffer.length then
    some (buffer.take offset ++ src.bytes ++ buffer.drop (offset + src.length))
  else none

/-- `char str[(MAX_STRING_SIZE + 1) * 2]`, zeroed, with the key and the second text copied in. -/
def notificationFrame (key text : CStr) : Option (List Byte) :=
  (copyInto (List.replicate ((maxStringSize + 1) * 2) nul) 0 key).bind fun str =>
    copyInto str (maxStringSize + 1) text

/-- `"DELETED"`. -/
def deletedText : CStr := ⟨ascii ['D', 'E', 'L', 'E', 'T', 'E', 'D'], by decide⟩

/-- The notification loop of `write_pair` and `delete_pair`: one frame per occupied slot. -/
def notifySubscribers (slots : Slots) (key text : CStr) : List Notification :=
  slots.occupied.map fun fd => ⟨fd, notificationFrame key text⟩

/-! ### What each function does at the node it finds -/

namespace KeyNode

/-- `write_subscription`: the descriptor goes to the first empty slot. -/
def addSubscriber (fd : Fd) (node : KeyNode) : Int × Option KeyNode :=
  match node.subscribersFds.exchange 0 fd with
  | some slots => (0, some { node with subscribersFds := slots })
  | none => (-1, some node)

/-- `delete_subscription`: the first slot that holds the descriptor is emptied. -/
def removeSubscriber (fd : Fd) (node : KeyNode) : Int × Option KeyNode :=
  match node.subscribersFds.exchange fd 0 with
  | some slots => (0, some { node with subscribersFds := slots })
  | none => (1, some node)

/-- `write_pair`: the value is replaced and the subscribers are told. -/
def overwrite (key value : CStr) (node : KeyNode) : List Notification × Option KeyNode :=
  (notifySubscribers node.subscribersFds key value, some { node with value := value })

/-- `delete_pair`: the subscribers are told and the node is unlinked. -/
def unlink (key : CStr) (node : KeyNode) : List Notification × Option KeyNode :=
  (notifySubscribers node.subscribersFds key deletedText, none)

end KeyNode

/-! ### The table functions -/

/-- The walk every table function makes to the first node with the key. -/
abbrev visitKey {ρ : Type} (key : CStr) (found : KeyNode → ρ × Option KeyNode)
    (chain : List KeyNode) : Option (ρ × List KeyNode) :=
  ChainedTable.visit KeyNode.key key found chain

/-- `write_subscription`. -/
def writeSubscription (ht : HashTable) (key : CStr) (fd : Fd) : Except Fault (Int × HashTable) := do
  let index ← HashTable.bucket (hash key)
  match visitKey key (KeyNode.addSubscriber fd) (ht.table index) with
  | some (code, chain) => return (code, ht.setChain index chain)
  | none => return (1, ht)

/-- `write_pair`, up to the overruns of `str`. -/
def writePair (ht : HashTable) (key value : CStr) :
    Except Fault (Int × HashTable × List Notification) := do
  let index ← HashTable.bucket (hash key)
  match visitKey key (KeyNode.overwrite key value) (ht.table index) with
  | some (notified, chain) => return (0, ht.setChain index chain, notified)
  | none => return (0, ht.setChain index (⟨key, value, Slots.empty⟩ :: ht.table index), [])

/-- `read_pair`. -/
def readPair (ht : HashTable) (key : CStr) : Except Fault (Option CStr) := do
  let index ← HashTable.bucket (hash key)
  return (ChainedTable.find KeyNode.key key (ht.table index)).map KeyNode.value

/-- `delete_subscription`. -/
def deleteSubscription (ht : HashTable) (key : CStr) (fd : Fd) :
    Except Fault (Int × HashTable) := do
  let index ← HashTable.bucket (hash key)
  match visitKey key (KeyNode.removeSubscriber fd) (ht.table index) with
  | some (code, chain) => return (code, ht.setChain index chain)
  | none => return (1, ht)

/-- `delete_pair`, up to the overruns of `str`. -/
def deletePair (ht : HashTable) (key : CStr) :
    Except Fault (Int × HashTable × List Notification) := do
  let index ← HashTable.bucket (hash key)
  match visitKey key (KeyNode.unlink key) (ht.table index) with
  | some (notified, chain) => return (0, ht.setChain index chain, notified)
  | none => return (1, ht, [])

/-- A call with its frames written: an overrun of `str` smashes the stack and ends the run. -/
def framed (call : Except Fault (Int × HashTable × List Notification)) :
    Except Fault (Int × HashTable × List Notification) := do
  let (code, table, notified) ← call
  if ∃ notification ∈ notified, notification.frame = none then .error .frame
  else return (code, table, notified)

/-- Rewrite every node, bucket by bucket. -/
def HashTable.mapNodes (ht : HashTable) (rewrite : KeyNode → KeyNode) : HashTable :=
  ⟨fun index => (ht.table index).map rewrite⟩

end Kvs.Server
