/-
**The job file parser (`server/parser.c`).**

The parser reads its file byte by byte, with no push-back. `Scan` is a program over the bytes not
read yet: a read on a regular file is short only at the end of the file. Its mark `hitEnd` says that
a read came back short, `overflow` that a byte was stored outside its buffer.

A buffer is the list of the bytes stored in it so far, so the index of the next store is its length;
`store` marks the ones outside. Bytes never stored are what the stack held: `read_uint` converts its
buffer without ending it when the file ends first, and `garbage` is what it then finds there.
-/

import Kvs.Basic
import Kvs.Lib.Scanner

namespace Kvs.Server

open Scanner (Scan Scanned)
open Scanner.Scan (read store)

/-- A program that reads the job file. -/
abbrev Parse (α : Type) := Scan Byte α

/-! ### The lexical functions -/

/-- The loop of `read_string`; `room` is `max - i`. -/
def readStringLoop (capacity : ℕ) : ℕ → List Byte → Parse (Int × List Byte)
  | 0, buffer => do
    store buffer.length capacity
    return (-1, buffer)
  | room + 1, buffer => do
    let bytesRead ← read 1
    match bytesRead with
    | [] => return (-1, buffer)
    | ch :: _ =>
      if ch = ' '.toUInt8 then return (-1, buffer)
      else if ch = ','.toUInt8 then do store buffer.length capacity; return (0, buffer)
      else if ch = ')'.toUInt8 then do store buffer.length capacity; return (1, buffer)
      else if ch = ']'.toUInt8 then do store buffer.length capacity; return (2, buffer)
      else do
        store buffer.length capacity
        readStringLoop capacity room (buffer ++ [ch])

/-- `read_string` into a buffer of `capacity` bytes: the code of the delimiter that ended the string
(`0` a comma, `1` a bracket, `2` a square bracket) or `-1`, and the bytes stored. -/
def readString (capacity max : ℕ) : Parse (Int × List Byte) := readStringLoop capacity max []

/-- `strcpy` of a string read into a row of the caller's array. -/
def copyRow (buffer : List Byte) : Parse CStr := do
  store (CStr.ofBuffer buffer).length maxStringSize
  return CStr.ofBuffer buffer

/-- `UINT_MAX`. -/
def uintMax : ℕ := 2 ^ 32 - 1

/-- `ULONG_MAX`. -/
def ulongMax : ℕ := 2 ^ 64 - 1

/-- A decimal digit. -/
def isDigit (byte : Byte) : Bool := decide (48 ≤ byte.toNat ∧ byte.toNat ≤ 57)

/-- `isspace` in the C locale. -/
def isSpace (byte : Byte) : Bool := decide (byte.toNat = 32 ∨ (9 ≤ byte.toNat ∧ byte.toNat ≤ 13))

/-- The number a string of digits denotes. -/
def digitsValue (digits : List Byte) : ℕ :=
  digits.foldl (fun value digit => 10 * value + (digit.toNat - 48)) 0

/-- `strtoul(text, NULL, 10)`. -/
def strtoul (text : List Byte) : ℕ :=
  let text := text.dropWhile isSpace
  let negative := decide (text.head? = some '-'.toUInt8)
  let text := if negative ∨ text.head? = some '+'.toUInt8 then text.drop 1 else text
  let value := digitsValue (text.takeWhile isDigit)
  if ulongMax < value then ulongMax
  else if negative then (2 ^ 64 - value) % 2 ^ 64 else value

/-- `char buf[16]` of `read_uint`. -/
def uintBufferSize : ℕ := 16

/-- The loop of `read_uint`: what `buf` holds when it is converted, and `*next`. -/
def readUintLoop (garbage buf : List Byte) : Parse (List Byte × Byte)
  | [] => ⟨(buf ++ garbage.drop buf.length, nul), [], true, false⟩
  | ch :: rest =>
    if isDigit ch then
      let more := readUintLoop garbage (buf ++ [ch]) rest
      { more with overflow := decide (uintBufferSize ≤ buf.length) || more.overflow }
    else ⟨(buf ++ [nul], ch), rest, false, decide (uintBufferSize ≤ buf.length)⟩

/-- `read_uint`: the number stored, none when the conversion exceeds `UINT_MAX`; and `*next`. -/
def readUint (garbage : List Byte) : Parse (Option ℕ × Byte) := do
  let (buf, next) ← readUintLoop garbage []
  let ul := strtoul buf
  if ul > uintMax then return (none, next) else return (some ul, next)

/-- `cleanup`: read up to and including the next newline. -/
def cleanup : Parse Unit
  | [] => ⟨(), [], true, false⟩
  | ch :: rest => if ch = newline then ⟨(), rest, false, false⟩ else cleanup rest

/-- `cleanup(fd); return value;`. -/
def cleanupWith {α : Type} (value : α) : Parse α := do
  cleanup
  return value

/-! ### The dispatcher -/

/-- `enum Command`. -/
inductive Command where
  | write | read | delete | show | wait | backup | help | empty | invalid
  /-- `EOC`, the end of the commands. -/
  | eoc
deriving DecidableEq

/-- `READ` and `DELETE`: the rest of the word and the blank after it. -/
def keywordWithBlank (rest : List Byte) (command : Command) : Parse Command := do
  let got ← read rest.length
  if got = rest then return command else cleanupWith .invalid

/-- `SHOW`, `BACKUP` and `HELP`: the rest of the word, and then a newline or the end of the file. -/
def keywordAlone (rest : List Byte) (command : Command) : Parse Command := do
  let got ← read rest.length
  if got = rest then do
    let last ← read 1
    if last = [] ∨ last = [newline] then return command else cleanupWith .invalid
  else cleanupWith .invalid

/-- `WAIT` and `WRITE`: four bytes, and one more when they do not read `"AIT "`. -/
def waitOrWrite : Parse Command := do
  let got ← read 4
  if got = ascii ['A', 'I', 'T', ' '] then return .wait
  else do
    let last ← read 1
    if got ++ last = ascii ['R', 'I', 'T', 'E', ' '] then return .write else cleanupWith .invalid

/-- The `switch` of `get_next` on the first character. -/
def commandAfter (ch : Byte) : Parse Command :=
  if ch = 'W'.toUInt8 then waitOrWrite
  else if ch = 'R'.toUInt8 then keywordWithBlank (ascii ['E', 'A', 'D', ' ']) .read
  else if ch = 'D'.toUInt8 then keywordWithBlank (ascii ['E', 'L', 'E', 'T', 'E', ' ']) .delete
  else if ch = 'S'.toUInt8 then keywordAlone (ascii ['H', 'O', 'W']) .show
  else if ch = 'B'.toUInt8 then keywordAlone (ascii ['A', 'C', 'K', 'U', 'P']) .backup
  else if ch = 'H'.toUInt8 then keywordAlone (ascii ['E', 'L', 'P']) .help
  else if ch = '#'.toUInt8 then cleanupWith .empty
  else if ch = newline then return .empty
  else cleanupWith .invalid

/-- `get_next`. -/
def getNext : Parse Command := do
  let first ← read 1
  match first with
  | [] => return .eoc
  | ch :: _ => commandAfter ch

/-! ### The argument parsers -/

/-- `parse_pair`, its two buffers of `capacity` bytes; none when it returns `0`. -/
def parsePair (capacity : ℕ) : Parse (Option (List Byte × List Byte)) := do
  let (code, key) ← readString capacity maxStringSize
  if code ≠ 0 then cleanupWith none
  else do
    let (code, value) ← readString capacity maxStringSize
    if code ≠ 1 then cleanupWith none else return some (key, value)

/-- The loop of `parse_write`; `room` is `max_pairs - num_pairs`. None when the function returns `0`
inside the loop. -/
def parseWriteLoop (stringSize : ℕ) : ℕ → List (CStr × CStr) → Parse (Option (List (CStr × CStr)))
  | 0, pairs => return some pairs
  | room + 1, pairs => do
    let pair ← parsePair stringSize
    match pair with
    | none => cleanupWith none
    | some (key, value) => do
      let key ← copyRow key
      let value ← copyRow value
      let ch ← read 1
      if ch = ascii ['('] then parseWriteLoop stringSize room (pairs ++ [(key, value)])
      else if ch = ascii [']'] then return some (pairs ++ [(key, value)])
      else cleanupWith none

/-- The end of `parse_write` and of `parse_read_delete`: a full array is refused, and a newline or
a NUL must follow the closing bracket. -/
def parseEnd {α : Type} (max : ℕ) (items : List α) : Parse (List α) := do
  if items.length = max then cleanupWith []
  else do
    let ch ← read 1
    if ch = [newline] ∨ ch = [nul] then return items else cleanupWith []

/-- What follows the loop of `parse_write` and of `parse_read_delete`: nothing when the function has
returned inside it. -/
def afterLoop {α : Type} (max : ℕ) : Option (List α) → Parse (List α)
  | none => return []
  | some items => parseEnd max items

/-- `parse_write`: the pairs stored, none when it returns `0`. -/
def parseWrite (maxPairs stringSize : ℕ) : Parse (List (CStr × CStr)) := do
  let ch ← read 1
  if ch ≠ ascii ['['] then cleanupWith []
  else do
    let ch ← read 1
    if ch ≠ ascii ['('] then cleanupWith []
    else do
      let pairs ← parseWriteLoop stringSize maxPairs []
      afterLoop maxPairs pairs

/-- The loop of `parse_read_delete`; `room` is `max_keys - num_keys`. None when the function returns
`0` inside the loop. -/
def parseKeysLoop (stringSize : ℕ) : ℕ → List CStr → Parse (Option (List CStr))
  | 0, keys => return some keys
  | room + 1, keys => do
    let (output, key) ← readString stringSize stringSize
    if output < 0 ∨ output = 1 then cleanupWith none
    else do
      let key ← copyRow key
      if output = 2 then return some (keys ++ [key])
      else parseKeysLoop stringSize room (keys ++ [key])

/-- `parse_read_delete`: the keys stored, none when it returns `0`. -/
def parseReadDelete (maxKeys stringSize : ℕ) : Parse (List CStr) := do
  let ch ← read 1
  if ch ≠ ascii ['['] then cleanupWith []
  else do
    let keys ← parseKeysLoop stringSize maxKeys []
    afterLoop maxKeys keys

/-- What `parse_wait` returns, with what it stores. -/
structure WaitResult where
  code : Int
  delay : Option ℕ
  threadId : Option ℕ
deriving DecidableEq

/-- `parse_wait`; `hasThread` says that `thread_id` is not `NULL`. -/
def parseWait (garbage : List Byte) (hasThread : Bool) : Parse WaitResult := do
  let (delay, ch) ← readUint garbage
  match delay with
  | none => cleanupWith ⟨-1, none, none⟩
  | some delay =>
    if ch = ' '.toUInt8 then
      if ¬ hasThread then cleanupWith ⟨0, some delay, none⟩
      else do
        let (threadId, ch) ← readUint garbage
        if threadId = none ∨ (ch ≠ newline ∧ ch ≠ nul) then cleanupWith ⟨-1, some delay, threadId⟩
        else return ⟨1, some delay, threadId⟩
    else if ch = newline ∨ ch = nul then return ⟨0, some delay, none⟩
    else cleanupWith ⟨-1, some delay, none⟩

end Kvs.Server
