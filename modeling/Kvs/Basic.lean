/-
**Bytes, C strings and the constants of the two programs.**

* `Byte` is C's `char`. The sources compare characters with `==` and with ASCII ranges only, so
  the unsigned reading of a byte gives the branch the signed one gives: a byte from `0x80` on is
  negative in C and lies in no ASCII range either way.
* `CStr` is what a `char *` points to when it is used as a string: the bytes before the first NUL.
  The missing NUL is a field, so `strcmp(a, b) == 0` is `a = b`.
* `CStr.ofBuffer` reads a string out of a byte array. An array without a NUL is read to its end.

`MAX_STRING_SIZE` is `40` in the server's and in the common constants.
-/

import Mathlib

namespace Kvs

/-- C's `char`. -/
abbrev Byte := UInt8

/-- A file descriptor, C's `int`. -/
abbrev Fd := Int

/-! ### Constants -/

/-- `TABLE_SIZE` (`kvs.h`). -/
def tableSize : ℕ := 26

/-- `MAX_STRING_SIZE` (`server/constants.h`, `common/constants.h`). -/
def maxStringSize : ℕ := 40

/-- `MAX_CLIENTS` (`server/constants.h`). -/
def maxClients : ℕ := 2

instance : NeZero maxClients := ⟨by decide⟩

/-- `MAX_WRITE_SIZE` (`server/constants.h`). -/
def maxWriteSize : ℕ := 256

/-! ### Characters -/

/-- The bytes of an ASCII text. -/
def ascii (text : List Char) : List Byte := text.map Char.toUInt8

@[simp] theorem ascii_nil : ascii [] = [] := rfl

@[simp] theorem ascii_cons (char : Char) (text : List Char) :
    ascii (char :: text) = char.toUInt8 :: ascii text := rfl

/-- `'\n'`. -/
def newline : Byte := 10

/-- `'\0'`. -/
def nul : Byte := 0

/-- An ASCII letter or digit. -/
def isLetterOrDigit (byte : Byte) : Prop :=
  (65 ≤ byte.toNat ∧ byte.toNat ≤ 90) ∨ (97 ≤ byte.toNat ∧ byte.toNat ≤ 122) ∨
    (48 ≤ byte.toNat ∧ byte.toNat ≤ 57)

instance (byte : Byte) : Decidable (isLetterOrDigit byte) := by
  unfold isLetterOrDigit
  infer_instance

/-! ### C strings -/

/-- A C string: the bytes before the NUL that ends it. -/
structure CStr where
  bytes : List Byte
  noNul : nul ∉ bytes
deriving DecidableEq

namespace CStr

@[ext] theorem ext {first second : CStr} (same : first.bytes = second.bytes) : first = second := by
  cases first
  cases second
  simpa using same

/-- `strlen`. -/
def length (str : CStr) : ℕ := str.bytes.length

/-- `str[0]`: the first byte, the NUL itself when the string is empty. -/
def first (str : CStr) : Byte := str.bytes.headD nul

/-- The string that starts at the front of a byte array. -/
def ofBuffer (buffer : List Byte) : CStr where
  bytes := buffer.takeWhile (· ≠ nul)
  noNul member := by simpa using List.mem_takeWhile_imp member

/-- `str` together with the NUL that ends it, followed by anything, reads back as `str`. -/
theorem ofBuffer_terminated (str : CStr) (rest : List Byte) :
    ofBuffer (str.bytes ++ nul :: rest) = str := by
  apply CStr.ext
  show (str.bytes ++ nul :: rest).takeWhile (· ≠ nul) = str.bytes
  rw [List.takeWhile_append_of_pos]
  · simp
  · intro byte member
    have different : byte ≠ nul := fun same => str.noNul (same ▸ member)
    simpa using different

/-- An array without a NUL is read to its end. -/
theorem ofBuffer_noNul {buffer : List Byte} (noNul : nul ∉ buffer) :
    ofBuffer buffer = ⟨buffer, noNul⟩ := by
  apply CStr.ext
  show buffer.takeWhile (· ≠ nul) = buffer
  rw [List.takeWhile_eq_self_iff]
  intro byte member
  have different : byte ≠ nul := fun same => noNul (same ▸ member)
  simpa using different

end CStr

end Kvs
