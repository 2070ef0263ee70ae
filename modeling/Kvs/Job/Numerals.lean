/-
**Numerals in a job file.**

`read_uint` collects digits in a buffer of `16` bytes and converts them with `strtoul`, which gives
the number they denote, or `ULONG_MAX` for a larger one. Every number up to `UINT_MAX` has a decimal
numeral that fits the buffer. At the end of the file the buffer is converted without an end
(`readUint_eof`).
-/

import Kvs.Server.ParserFrame

namespace Kvs.Server

open Scanner (Scan Scanned)
open Scanner.Scan

/-! ### Reading digits -/

/-- The digits a text starts with. -/
theorem isDigit_of_mem_takeWhile (text : List Byte) :
    ∀ byte ∈ text.takeWhile isDigit, isDigit byte := fun _ member => List.mem_takeWhile_imp member

/-- The byte behind them is none. -/
theorem not_isDigit_of_dropWhile {text left : List Byte} {ch : Byte}
    (after : text.dropWhile isDigit = ch :: left) : isDigit ch = false := by
  have first := List.head?_dropWhile_not isDigit text
  rwa [after] at first

/-- `read_uint` stops behind the first byte that is no digit; it overran its buffer when there were
sixteen digits or more. -/
theorem readUintLoop_digits (garbage : List Byte) {ch : Byte} (other : isDigit ch = false)
    (rest : List Byte) :
    ∀ digits buf : List Byte, (∀ byte ∈ digits, isDigit byte) →
      readUintLoop garbage buf (digits ++ ch :: rest) =
        ⟨(buf ++ digits ++ [nul], ch), rest, false,
          decide (uintBufferSize ≤ buf.length + digits.length)⟩ := by
  intro digits
  induction digits with
  | nil =>
    intro buf _
    rw [List.nil_append, readUintLoop, if_neg (by simp [other]), List.append_nil]
    rfl
  | cons digit digits ih =>
    intro buf areDigits
    rw [List.cons_append, readUintLoop, if_pos (areDigits digit List.mem_cons_self),
      ih (buf ++ [digit]) fun byte member => areDigits byte (List.mem_cons_of_mem _ member)]
    simp only [List.append_assoc, List.singleton_append, List.length_append, List.length_nil,
      List.length_cons, Scanned.mk.injEq, true_and]
    rw [← Bool.decide_or, decide_eq_decide]
    omega

/-- Digits up to the end of the string are converted as the number they denote, or `ULONG_MAX`. -/
theorem strtoul_numeral {digits after : List Byte} (areDigits : ∀ byte ∈ digits, isDigit byte)
    (ended : ∀ ch ∈ after.head?, ch = nul) :
    strtoul (digits ++ after) = min (digitsValue digits) ulongMax := by
  have first : ∀ ch ∈ (digits ++ after).head?, isDigit ch ∨ ch = nul := by
    intro ch head
    cases digits with
    | nil => exact Or.inr (ended ch head)
    | cons digit digits =>
      obtain rfl : digit = ch := Option.some.inj head
      exact Or.inl (areDigits digit List.mem_cons_self)
  have taken : (digits ++ after).takeWhile isDigit = digits := by
    rw [List.takeWhile_append_of_pos areDigits]
    cases after with
    | nil => exact List.append_nil _
    | cons ch _ =>
      obtain rfl := ended ch rfl
      rw [List.takeWhile_cons_of_neg (by decide), List.append_nil]
  have start : (digits ++ after).dropWhile isSpace = digits ++ after := by
    refine List.dropWhile_eq_self_iff.mpr fun nonempty space => ?_
    have space := of_decide_eq_true space
    have head : (digits ++ after).head? = some (digits ++ after)[0] := by
      rw [List.head?_eq_getElem?, List.getElem?_eq_getElem nonempty]
    rcases first _ head with digit | same
    · have digit := of_decide_eq_true digit
      omega
    · rw [same] at space
      revert space
      decide
  have unsigned : ∀ sign, isDigit sign = false → sign ≠ nul →
      ¬ (digits ++ after).head? = some sign := by
    intro sign noDigit visible head
    rcases first sign head with digit | same
    · rw [noDigit] at digit
      cases digit
    · exact visible same
  have noMinus := unsigned '-'.toUInt8 (by decide) (by decide)
  have noPlus := unsigned '+'.toUInt8 (by decide) (by decide)
  simp only [strtoul, start, noMinus, noPlus, decide_false, Bool.false_eq_true, or_self, if_false,
    taken]
  split <;> omega

/-- The conversion reads nothing. -/
theorem readUint_apply (garbage file : List Byte) :
    readUint garbage file =
      ⟨(if strtoul (readUintLoop garbage [] file).val.1 > uintMax then none
        else some (strtoul (readUintLoop garbage [] file).val.1),
        (readUintLoop garbage [] file).val.2), (readUintLoop garbage [] file).rest,
        (readUintLoop garbage [] file).hitEnd, (readUintLoop garbage [] file).overflow⟩ := by
  rw [readUint, bind_apply]
  dsimp only
  split <;> simp only [pure, Bool.or_false]

/-- What `read_uint` stores for a number that `strtoul` may have cut. -/
theorem uint_of_numeral (number : ℕ) :
    (if min number ulongMax > uintMax then none else some (min number ulongMax)) =
      if uintMax < number then none else some number := by
  have wider : uintMax < ulongMax := by decide
  by_cases tooLarge : uintMax < number
  · rw [if_pos (lt_min tooLarge wider), if_pos tooLarge]
  · rw [min_eq_left (by omega), if_neg tooLarge]

/-- **`read_uint` on digits** and a byte that is none; it overruns its buffer with the sixteenth. -/
theorem readUint_numeral (garbage : List Byte) {digits : List Byte}
    (areDigits : ∀ byte ∈ digits, isDigit byte) {ch : Byte} (other : isDigit ch = false)
    (rest : List Byte) :
    readUint garbage (digits ++ ch :: rest) =
      ⟨(if uintMax < digitsValue digits then none else some (digitsValue digits), ch), rest, false,
        decide (uintBufferSize ≤ digits.length)⟩ := by
  have looped := readUintLoop_digits garbage other rest digits [] areDigits
  rw [List.length_nil, Nat.zero_add, List.nil_append] at looped
  have ended : ∀ ch ∈ [nul].head?, ch = nul := fun ch head => (Option.some.inj head).symm
  rw [readUint_apply, looped, strtoul_numeral areDigits ended, uint_of_numeral]

/-- Digits that fit the buffer. -/
theorem readUint_digits (garbage : List Byte) {digits : List Byte}
    (areDigits : ∀ byte ∈ digits, isDigit byte) (fits : digits.length < uintBufferSize) {ch : Byte}
    (other : isDigit ch = false) (rest : List Byte) :
    readUint garbage (digits ++ ch :: rest) =
      ⟨(if uintMax < digitsValue digits then none else some (digitsValue digits), ch), rest, false,
        false⟩ := by
  rw [readUint_numeral garbage areDigits other, decide_eq_false (not_le.mpr fits)]

/-- `parse_wait`, no thread asked for, stores outside the buffer exactly when `read_uint` does. -/
theorem parseWait_overflow (garbage : List Byte) {digits : List Byte}
    (areDigits : ∀ byte ∈ digits, isDigit byte) {ch : Byte} (other : isDigit ch = false)
    (rest : List Byte) :
    (parseWait garbage false (digits ++ ch :: rest)).overflow =
      decide (uintBufferSize ≤ digits.length) := by
  rw [parseWait, bind_apply, readUint_numeral garbage areDigits other rest]
  by_cases tooLarge : uintMax < digitsValue digits
  · rw [if_pos tooLarge]
    dsimp only
    rw [stays_cleanupWith, Bool.or_false]
  · have following : Stays (if ch = newline ∨ ch = nul
          then pure ⟨0, some (digitsValue digits), none⟩
        else cleanupWith ⟨-1, some (digitsValue digits), none⟩ : Parse WaitResult) :=
      stays_ite (stays_pure _) (stays_cleanupWith _)
    rw [if_neg tooLarge]
    dsimp only
    split
    · rw [if_pos Bool.false_ne_true, stays_cleanupWith, Bool.or_false]
    · rw [following, Bool.or_false]

theorem readUintLoop_eof (garbage : List Byte) :
    ∀ digits buf : List Byte, (∀ byte ∈ digits, isDigit byte) →
      (readUintLoop garbage buf digits).val =
        (buf ++ digits ++ garbage.drop (buf.length + digits.length), nul) := by
  intro digits
  induction digits with
  | nil =>
    intro buf _
    rw [List.append_nil]
    rfl
  | cons digit digits ih =>
    intro buf areDigits
    have later := ih (buf ++ [digit]) fun byte member =>
      areDigits byte (List.mem_cons_of_mem _ member)
    rw [readUintLoop, if_pos (areDigits digit List.mem_cons_self)]
    show (readUintLoop garbage (buf ++ [digit]) digits).val = _
    rw [later, List.append_assoc buf, List.singleton_append, List.length_append,
      List.length_singleton, List.length_cons, Nat.add_assoc, Nat.add_comm 1]

/-- **`read_uint` at the end of the file** does not end its buffer: digits that the stack held
behind those it read are converted with them. -/
theorem readUint_eof {digits more : List Byte} (areDigits : ∀ byte ∈ digits, isDigit byte)
    (moreDigits : ∀ byte ∈ more, isDigit byte) {garbage : List Byte}
    (left : garbage.drop digits.length = more) :
    (readUint garbage digits).val =
      (if uintMax < digitsValue (digits ++ more) then none else some (digitsValue (digits ++ more)),
        nul) := by
  have looped := readUintLoop_eof garbage digits [] areDigits
  rw [List.length_nil, Nat.zero_add, List.nil_append, left, ← List.append_nil (digits ++ more)]
    at looped
  have allDigits : ∀ byte ∈ digits ++ more, isDigit byte := fun byte member =>
    (List.mem_append.mp member).elim (areDigits byte) (moreDigits byte)
  rw [readUint_apply, looped, strtoul_numeral allDigits fun _ head => (by cases head),
    uint_of_numeral]

/-! ### Decimal numerals -/

/-- The digit of a number below ten. -/
def digitByte (digit : ℕ) : Byte := UInt8.ofNat (48 + digit)

/-- The decimal numeral of a number, without leading zeros. -/
def decimal (number : ℕ) : List Byte :=
  if number = 0 then [digitByte 0] else (Nat.digits 10 number).reverse.map digitByte

theorem digitByte_toNat {digit : ℕ} (small : digit < 10) :
    (digitByte digit).toNat = 48 + digit := by
  rw [digitByte, UInt8.toNat_ofNat']
  omega

theorem digitsValue_digits {digits : List ℕ} (small : ∀ digit ∈ digits, digit < 10) :
    digitsValue (digits.reverse.map digitByte) = Nat.ofDigits 10 digits := by
  induction digits with
  | nil => rfl
  | cons digit digits ih =>
    have tail := ih fun other member => small other (List.mem_cons_of_mem _ member)
    have head := digitByte_toNat (small digit List.mem_cons_self)
    rw [digitsValue] at tail ⊢
    rw [List.reverse_cons, List.map_append, List.foldl_append, tail]
    simp only [List.map_cons, List.map_nil, List.foldl_cons, List.foldl_nil, head,
      Nat.ofDigits_cons]
    omega

/-- A numeral consists of digits. -/
theorem decimal_digits (number : ℕ) : ∀ byte ∈ decimal number, isDigit byte := by
  have digit : ∀ digit, digit < 10 → isDigit (digitByte digit) := by
    intro digit small
    rw [isDigit, digitByte_toNat small]
    exact decide_eq_true (by omega)
  intro byte member
  rw [decimal] at member
  split at member
  · rw [List.mem_singleton.mp member]
    exact digit 0 (by omega)
  · obtain ⟨value, digitOf, rfl⟩ := List.mem_map.mp member
    exact digit value (Nat.digits_lt_base (by omega) (List.mem_reverse.mp digitOf))

theorem digitsValue_decimal (number : ℕ) : digitsValue (decimal number) = number := by
  rw [decimal]
  split
  · rename_i zero
    rw [zero]
    rfl
  · rw [digitsValue_digits fun digit member => Nat.digits_lt_base (by omega) member,
      Nat.ofDigits_digits]

theorem decimal_length {number : ℕ} (fits : number ≤ uintMax) :
    (decimal number).length < uintBufferSize := by
  rw [decimal, uintBufferSize]
  split
  · simp
  · have short : (Nat.digits 10 number).length ≤ 10 :=
      (Nat.digits_length_le_iff (by omega) number).mpr (by unfold uintMax at fits; omega)
    rw [List.length_map, List.length_reverse]
    omega

/-- **`read_uint` on a numeral** stops behind the character after it. -/
theorem readUint_decimal (garbage : List Byte) {number : ℕ} (fits : number ≤ uintMax) {ch : Byte}
    (other : isDigit ch = false) (rest : List Byte) :
    readUint garbage (decimal number ++ ch :: rest) = ⟨(some number, ch), rest, false, false⟩ := by
  rw [readUint_digits garbage (decimal_digits number) (decimal_length fits) other,
    digitsValue_decimal, if_neg (not_lt.mpr fits)]

end Kvs.Server
