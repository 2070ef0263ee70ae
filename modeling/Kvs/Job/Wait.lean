/-
**WAIT keeps its number.**

The argument of WAIT is a string of digits of any length. `parse_wait` stores the number it denotes
when that fits an `unsigned int` and fails otherwise (`parseWait_numeral`); `kvs_wait` then sleeps
exactly that many milliseconds (`delayToTimespec_exact`).

`read_uint` collects the digits in sixteen bytes without counting them: the sixteenth digit takes
the last byte, and the one behind the digits is read to, and ended at, the seventeenth. Leading
zeros are digits like any other. `waitKeeps_iff` says that this is all that goes wrong.
-/

import Kvs.Job.Numerals

namespace Kvs.Server

open Scanner (Scan Scanned)
open Scanner.Scan

/-! ### Sleeping -/

/-- `kvs_wait` sleeps the milliseconds it is given, in a valid `timespec`, and the product it
computes is that of the numbers. -/
structure SleepsExactly (delay : ℕ) : Prop where
  nonneg : 0 ≤ (kvsWait (UInt32.ofNat delay)).tvNsec
  nanos : (kvsWait (UInt32.ofNat delay)).tvNsec < 10 ^ 9
  total : (kvsWait (UInt32.ofNat delay)).tvSec * 10 ^ 9 + (kvsWait (UInt32.ofNat delay)).tvNsec =
    delay * 10 ^ 6
  unwrapped : (UInt32.ofNat delay % 1000 * 1000000).toNat = delay % 1000 * 1000000

/-- The milliseconds left below a second give fewer than `2 ^ 32` nanoseconds. -/
theorem nanos_unwrapped (delayMs : UInt32) :
    (delayMs % 1000 * 1000000).toNat = delayMs.toNat % 1000 * 1000000 := by
  have below : delayMs.toNat % 1000 * 1000000 < 2 ^ 32 := by
    have small : delayMs.toNat % 1000 < 1000 := Nat.mod_lt _ (by decide)
    omega
  calc (delayMs % 1000 * 1000000).toNat
      = (delayMs % 1000).toNat * (1000000 : UInt32).toNat % 2 ^ 32 := UInt32.toNat_mul _ _
    _ = delayMs.toNat % 1000 * 1000000 % 2 ^ 32 := by rw [UInt32.toNat_mod]; rfl
    _ = delayMs.toNat % 1000 * 1000000 := Nat.mod_eq_of_lt below

/-- **`delay_to_timespec`** splits any delay into seconds and nanoseconds. -/
theorem delayToTimespec_exact (delayMs : UInt32) :
    delayToTimespec delayMs =
      ⟨(delayMs.toNat / 1000 : ℕ), (delayMs.toNat % 1000 * 1000000 : ℕ)⟩ := by
  have seconds : (delayMs / 1000).toNat = delayMs.toNat / 1000 := UInt32.toNat_div _ _
  rw [delayToTimespec, seconds, nanos_unwrapped]

/-- A delay that fits an `unsigned int` is slept exactly. -/
theorem sleepsExactly_of_fits {delay : ℕ} (fits : delay ≤ uintMax) : SleepsExactly delay := by
  have stored : (UInt32.ofNat delay).toNat = delay := by
    rw [UInt32.toNat_ofNat']
    exact Nat.mod_eq_of_lt (by unfold uintMax at fits; omega)
  have slept : kvsWait (UInt32.ofNat delay) =
      ⟨(delay / 1000 : ℕ), (delay % 1000 * 1000000 : ℕ)⟩ := by
    rw [kvsWait, delayToTimespec_exact, stored]
  refine ⟨?_, ?_, ?_, ?_⟩
  · rw [slept]
    exact Int.natCast_nonneg _
  · rw [slept]
    dsimp only
    omega
  · rw [slept]
    dsimp only
    omega
  · rw [nanos_unwrapped, stored]

/-! ### Reading the number -/

/-- **`parse_wait` on digits** and a newline, no thread asked for. -/
theorem parseWait_numeral (garbage : List Byte) {digits : List Byte}
    (areDigits : ∀ byte ∈ digits, isDigit byte) (rest : List Byte) :
    (parseWait garbage false (digits ++ newline :: rest)).val =
      if uintMax < digitsValue digits then ⟨-1, none, none⟩
      else ⟨0, some (digitsValue digits), none⟩ := by
  have other : isDigit newline = false := by decide
  rw [parseWait, bind_apply, readUint_numeral garbage areDigits other rest]
  by_cases tooLarge : uintMax < digitsValue digits
  · rw [if_pos tooLarge, if_pos tooLarge]
    rfl
  · rw [if_neg tooLarge, if_neg tooLarge]
    rfl

/-! ### Strings of digits -/

/-- A non-empty string of decimal digits. -/
structure Digits where
  bytes : List Byte
  nonempty : bytes ≠ []
  areDigits : ∀ byte ∈ bytes, isDigit byte

/-- `parse_wait` reads the number the digits denote, without leaving the buffer of `read_uint`, and
what it stores is what `kvs_wait` sleeps. -/
structure WaitKeeps (garbage : List Byte) (digits : Digits) (rest : List Byte) : Prop where
  fits : digitsValue digits.bytes ≤ uintMax →
    (parseWait garbage false (digits.bytes ++ newline :: rest)).val =
      ⟨0, some (digitsValue digits.bytes), none⟩
  tooLarge : uintMax < digitsValue digits.bytes →
    (parseWait garbage false (digits.bytes ++ newline :: rest)).val = ⟨-1, none, none⟩
  inside : (parseWait garbage false (digits.bytes ++ newline :: rest)).overflow = false
  sleeps : ∀ delay,
    (parseWait garbage false (digits.bytes ++ newline :: rest)).val.delay = some delay →
      SleepsExactly delay

/-- A stored delay fits. -/
theorem parseWait_delay {garbage : List Byte} {digits : Digits} {rest : List Byte} {delay : ℕ}
    (stored : (parseWait garbage false (digits.bytes ++ newline :: rest)).val.delay = some delay) :
    delay ≤ uintMax := by
  rw [parseWait_numeral garbage digits.areDigits rest] at stored
  split at stored
  · exact absurd stored (Option.some_ne_none delay).symm
  · rename_i fits
    exact Option.some.inj stored ▸ not_lt.mp fits

/-- **WAIT keeps its number** exactly when it has fewer digits than `read_uint` has bytes for. -/
theorem waitKeeps_iff (garbage : List Byte) (digits : Digits) (rest : List Byte) :
    WaitKeeps garbage digits rest ↔ digits.bytes.length < uintBufferSize := by
  have numeral := parseWait_numeral garbage digits.areDigits rest
  have other : isDigit newline = false := by decide
  have overflow := parseWait_overflow garbage digits.areDigits other rest
  constructor
  · intro keeps
    have inside := keeps.inside
    rw [overflow] at inside
    exact not_le.mp (of_decide_eq_false inside)
  · intro short
    refine ⟨fun fits => ?_, fun tooLarge => ?_, ?_, fun delay stored => ?_⟩
    · rw [numeral, if_neg (not_lt.mpr fits)]
    · rw [numeral, if_pos tooLarge]
    · rw [overflow]
      exact decide_eq_false (not_le.mpr short)
    · exact sleepsExactly_of_fits (parseWait_delay stored)

/-- Sixteen zeros. -/
def sixteenZeros : Digits where
  bytes := List.replicate 16 '0'.toUInt8
  nonempty := by simp
  areDigits := fun _ member => (List.eq_of_mem_replicate member) ▸ (by decide)

/-- Sixteen zeros and the newline do not fit the buffer. -/
theorem sixteenZeros_overrun : ¬ ∀ garbage digits rest, WaitKeeps garbage digits rest := by
  intro keeps
  have inside := (keeps [] sixteenZeros []).inside
  have other : isDigit newline = false := by decide
  rw [parseWait_overflow [] sixteenZeros.areDigits other []] at inside
  exact absurd inside (by decide)

end Kvs.Server
