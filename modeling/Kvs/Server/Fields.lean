/-
**Strings in fixed-width fields.**

Frames and arrays keep a string in a field of fixed width, padded with NULs: `padded`. The sources
fill a field in two ways, `strncpy` by the length of the string into zeroed memory (`copyInto`) and
`strncpy` by the width of the field from another array (`strncpy`), and read it back as a C string
(`CStr.ofBuffer`). A string that is as long as its field leaves no NUL in it.
-/

import Kvs.Server.Table

namespace Kvs.Server

/-- `strncpy(dest, src, size)` from an array of at least `size` bytes. -/
def strncpy (size : ℕ) (src : List Byte) : List Byte :=
  (CStr.ofBuffer (src.take size)).bytes ++
    List.replicate (size - (CStr.ofBuffer (src.take size)).length) nul

/-- A string and the NULs that fill its field. -/
def padded (size : ℕ) (str : CStr) : List Byte :=
  str.bytes ++ List.replicate (size - str.length) nul

section Padded

variable {size : ℕ} {str : CStr}

theorem padded_length (fits : str.length ≤ size) : (padded size str).length = size := by
  unfold CStr.length at fits
  rw [padded, List.length_append, List.length_replicate, CStr.length]
  omega

/-- A field holds a NUL exactly when it is wider than its string. -/
theorem nul_mem_padded : nul ∈ padded size str ↔ str.length < size := by
  rw [padded, List.mem_append, List.mem_replicate]
  constructor
  · rintro (inside | ⟨room, _⟩)
    · exact absurd inside str.noNul
    · omega
  · exact fun room => Or.inr ⟨by omega, rfl⟩

/-- A field reads back as its string, also one without a NUL. -/
theorem ofBuffer_padded (size : ℕ) (str : CStr) : CStr.ofBuffer (padded size str) = str := by
  rw [padded]
  cases room : size - str.length with
  | zero =>
    rw [List.replicate_zero, List.append_nil]
    exact CStr.ofBuffer_noNul str.noNul
  | succ more =>
    rw [List.replicate_succ]
    exact CStr.ofBuffer_terminated _ _

/-- A string copied over the front of a zeroed field fills it. -/
theorem copyInto_padded (before after : List Byte) (fits : str.length ≤ size) {offset : ℕ}
    (place : before.length = offset) :
    copyInto (before ++ (List.replicate size nul ++ after)) offset str =
      some (before ++ (padded size str ++ after)) := by
  subst place
  have inside : before.length + str.length ≤
      (before ++ (List.replicate size nul ++ after)).length := by
    simp only [List.length_append, List.length_replicate]
    omega
  rw [copyInto, if_pos inside, List.take_left, ← List.drop_drop, List.drop_left,
    List.drop_append_of_le_length (by simpa using fits), List.drop_replicate, padded]
  simp only [List.append_assoc]

/-- A copy that is made lies inside the buffer and leaves its length. -/
theorem copyInto_inside {buffer copied : List Byte} {offset : ℕ}
    (made : copyInto buffer offset str = some copied) :
    offset + str.length ≤ buffer.length ∧ copied.length = buffer.length := by
  rw [copyInto] at made
  split at made
  · rename_i inside
    cases made
    refine ⟨inside, ?_⟩
    simp only [List.length_append, List.length_take, List.length_drop]
    unfold CStr.length at inside ⊢
    omega
  · cases made

end Padded

/-! ### `strncpy` -/

theorem strncpy_eq_padded (size : ℕ) (src : List Byte) :
    strncpy size src = padded size (CStr.ofBuffer (src.take size)) := rfl

/-- What `strncpy` reads is no longer than its bound. -/
theorem ofBuffer_take_length (size : ℕ) (src : List Byte) :
    (CStr.ofBuffer (src.take size)).length ≤ size := by
  refine (List.takeWhile_prefix _).length_le.trans ?_
  rw [List.length_take]
  exact min_le_left _ _

theorem strncpy_length (size : ℕ) (src : List Byte) : (strncpy size src).length = size :=
  padded_length (ofBuffer_take_length size src)

/-- `strncpy` of a field copies the field. -/
theorem strncpy_padded {size : ℕ} {str : CStr} (fits : str.length ≤ size) (rest : List Byte) :
    strncpy size (padded size str ++ rest) = padded size str := by
  have front : (padded size str ++ rest).take size = padded size str :=
    List.take_left' (padded_length fits)
  rw [strncpy_eq_padded, front, ofBuffer_padded]

/-- `strncpy` of what `strncpy` wrote writes the same. -/
theorem strncpy_strncpy (size : ℕ) (src : List Byte) :
    strncpy size (strncpy size src) = strncpy size src := by
  have again := strncpy_padded (ofBuffer_take_length size src) []
  rwa [List.append_nil, ← strncpy_eq_padded] at again

end Kvs.Server
