/-
**Writing a string (`write_str` in `server/io.c`).**

`write_str` calls `write` until the length it started with is used up. It counts the bytes taken
down, but every call starts at the front of the string again. What a call takes is as for the pipes
of `common/io.c`: at least one byte, and at most one more than stated; once the stated calls are
made, a call takes all it is asked to.

`pieces` is how the calls divide the string. The bytes sent are those of the string exactly when
every piece is found at its front (`writeStr_eq_iff`), which a call that takes the whole string
makes sure of, and only a string of one repeated byte in every case.
-/

import Kvs.Basic

namespace Kvs.Server

/-! ### `write_str` -/

/-- The loop of `write_str`; `len` is what it counts down. -/
def writeStrLoop (str : List Byte) : List ℕ → ℕ → List Byte → List Byte
  | [], len, sent => sent ++ str.take len
  | more :: calls, len, sent =>
    if len = 0 then sent
    else
      let written := min len (more + 1)
      writeStrLoop str calls (len - written) (sent ++ str.take written)

/-- `write_str`: the bytes sent to the descriptor. -/
def writeStr (str : CStr) (calls : List ℕ) : List Byte :=
  writeStrLoop str.bytes calls str.length []

/-- The pieces into which the calls divide what is left of a string. -/
def pieces : List ℕ → List Byte → List (List Byte)
  | [], left => [left]
  | more :: calls, left => left.take (more + 1) :: pieces calls (left.drop (more + 1))

/-! ### Pieces -/

theorem pieces_flatten (calls : List ℕ) (left : List Byte) :
    (pieces calls left).flatten = left := by
  induction calls generalizing left with
  | nil => exact List.flatten_singleton
  | cons more calls ih => rw [pieces, List.flatten_cons, ih, List.take_append_drop]

/-- No piece is longer than the string. -/
theorem length_le_of_mem_pieces {calls : List ℕ} {left piece : List Byte}
    (member : piece ∈ pieces calls left) : piece.length ≤ left.length := by
  have part : piece.length ≤ (pieces calls left).flatten.length := by
    rw [List.length_flatten]
    exact List.le_sum_of_mem (List.mem_map_of_mem member)
  rwa [pieces_flatten] at part

/-- Pieces replaced by others of the same lengths. -/
theorem flatMap_eq_flatten_iff {α : Type} {replace : List α → List α} {pieces : List (List α)}
    (sameLength : ∀ piece ∈ pieces, (replace piece).length = piece.length) :
    pieces.flatMap replace = pieces.flatten ↔ ∀ piece ∈ pieces, replace piece = piece := by
  induction pieces with
  | nil => exact iff_of_true rfl fun _ none => absurd none List.not_mem_nil
  | cons first others ih =>
    obtain ⟨firstLength, otherLengths⟩ := List.forall_mem_cons.mp sameLength
    rw [List.flatMap_cons, List.flatten_cons, List.forall_mem_cons, ← ih otherLengths]
    constructor
    · exact fun same => List.append_inj same firstLength
    · rintro ⟨same, later⟩
      rw [same, later]

/-! ### What is sent -/

theorem writeStrLoop_zero (str sent : List Byte) (calls : List ℕ) :
    writeStrLoop str calls 0 sent = sent := by
  cases calls with
  | nil => exact List.append_nil sent
  | cons => exact if_pos rfl

/-- Every call sends as many bytes as its piece has, from the front of the string. -/
theorem writeStrLoop_pieces (str : List Byte) (calls : List ℕ) :
    ∀ left sent : List Byte, writeStrLoop str calls left.length sent =
      sent ++ (pieces calls left).flatMap fun piece => str.take piece.length := by
  induction calls with
  | nil =>
    intro left sent
    rw [pieces, List.flatMap_singleton]
    rfl
  | cons more calls ih =>
    intro left sent
    rw [writeStrLoop, pieces, List.flatMap_cons, List.length_take, Nat.min_comm (more + 1)]
    by_cases done : left.length = 0
    · -- nothing is left: the calls are not made, and their pieces are empty
      obtain rfl := List.length_eq_zero_iff.mp done
      have later := ih [] sent
      rw [List.length_nil, writeStrLoop_zero] at later
      rw [if_pos done, List.drop_nil, List.length_nil, Nat.zero_min, List.take_zero,
        List.nil_append, ← later]
    · have shorter : left.length - min left.length (more + 1) = (left.drop (more + 1)).length := by
        rw [List.length_drop]
        omega
      rw [if_neg done]
      dsimp only
      rw [shorter, ih, List.append_assoc]

/-- **`write_str` sends its string** exactly when every piece into which the calls divide it stands
at its front. -/
theorem writeStr_eq_iff (str : CStr) (calls : List ℕ) :
    writeStr str calls = str.bytes ↔ ∀ piece ∈ pieces calls str.bytes, piece <+: str.bytes := by
  have sent : writeStr str calls =
      (pieces calls str.bytes).flatMap fun piece => str.bytes.take piece.length :=
    writeStrLoop_pieces str.bytes calls str.bytes []
  have sameLength : ∀ piece ∈ pieces calls str.bytes,
      (str.bytes.take piece.length).length = piece.length := fun piece member => by
    rw [List.length_take, min_eq_left (length_le_of_mem_pieces member)]
  have whole := flatMap_eq_flatten_iff sameLength
  rw [pieces_flatten] at whole
  rw [sent, whole]
  refine forall₂_congr fun piece _ => ?_
  rw [List.prefix_iff_eq_take]
  exact eq_comm

/-- `"ab"` sent one byte at a time is `"aa"`. -/
theorem shortWrite_not_sent :
    ¬ ∀ (str : CStr) (calls : List ℕ), writeStr str calls = str.bytes := by
  intro sends
  exact absurd (sends ⟨ascii ['a', 'b'], by decide⟩ [0, 0]) (by decide)

/-! ### Strings that are always sent -/

/-- A call that takes the whole string sends it. -/
theorem writeStr_whole (str : CStr) {more : ℕ} (takesAll : str.length ≤ more + 1) (calls : List ℕ) :
    writeStr str (more :: calls) = str.bytes := by
  rw [writeStr, writeStrLoop]
  by_cases done : str.length = 0
  · rw [if_pos done]
    exact (List.length_eq_zero_iff.mp done).symm
  · rw [if_neg done]
    dsimp only
    rw [min_eq_left takesAll, Nat.sub_self, writeStrLoop_zero, List.nil_append]
    exact List.take_length

/-- **Whatever the calls take**, only a string of one repeated byte is divided into pieces that
stand at its front. -/
theorem pieces_prefix_iff (str : List Byte) :
    (∀ calls, ∀ piece ∈ pieces calls str, piece <+: str) ↔
      ∀ byte ∈ str, some byte = str.head? := by
  constructor
  · -- a first call that ends in front of the byte
    intro divided byte member
    obtain ⟨place, inside, rfl⟩ := List.mem_iff_getElem.mp member
    cases place with
    | zero => rw [List.head?_eq_getElem?, List.getElem?_eq_getElem inside]
    | succ place =>
      obtain ⟨rest, whole⟩ := divided [place] (str.drop (place + 1)) (by simp [pieces])
      rw [List.drop_eq_getElem_cons inside] at whole
      exact (congrArg List.head? whole)
  · intro same calls piece member
    cases str with
    | nil =>
      have empty := length_le_of_mem_pieces member
      rw [List.length_eq_zero_iff.mp (Nat.le_zero.mp empty)]
    | cons first others =>
      have repeated : ∀ byte ∈ first :: others, byte = first := fun byte member =>
        Option.some.inj (same byte member)
      have part : ∀ byte ∈ piece, byte = first := fun byte inside => repeated byte <| by
        rw [← pieces_flatten calls (first :: others)]
        exact List.mem_flatten_of_mem member inside
      rw [List.eq_replicate_of_mem part, List.eq_replicate_of_mem repeated]
      exact List.prefix_replicate_iff.mpr ⟨by simpa using length_le_of_mem_pieces member, by simp⟩

end Kvs.Server
