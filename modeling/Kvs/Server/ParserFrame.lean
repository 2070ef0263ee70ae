/-
**The parser looks only at what it consumes.**

Every function of the parser is `Regular`: it consumes a prefix of the bytes left, and as long as no
read came back short it would have done the same with more bytes behind. The functions without a
loop are sequences of regular ones; each loop is one induction.
-/

import Kvs.Server.Job

namespace Kvs.Server

open Scanner (Scan Scanned)
open Scanner.Scan

/-! ### The loops -/

/-- `cleanup` stops behind the first newline. -/
theorem cleanup_line (line rest : List Byte) (noNewline : newline ∉ line) :
    cleanup (line ++ newline :: rest) = ⟨(), rest, false, false⟩ := by
  induction line with
  | nil => simp [cleanup]
  | cons ch line ih =>
    have different : ch ≠ newline := fun same => noNewline (by simp [same])
    rw [List.cons_append, cleanup, if_neg different]
    exact ih fun member => noNewline (List.mem_cons_of_mem _ member)

/-- `cleanup` reads at least one byte. -/
theorem cleanup_consumes {file : List Byte} (full : (cleanup file).hitEnd = false) :
    (cleanup file).rest.length < file.length := by
  induction file with
  | nil => cases full
  | cons ch file ih =>
    rw [cleanup] at full ⊢
    rw [List.length_cons]
    split
    · exact Nat.lt_succ_self _
    · rename_i different
      rw [if_neg different] at full
      exact (ih full).trans (Nat.lt_succ_self _)

theorem regular_cleanup : Regular cleanup where
  suffix file := by
    induction file with
    | nil => exact List.suffix_refl _
    | cons ch file ih =>
      rw [cleanup]
      split
      · exact List.suffix_cons ch file
      · exact ih.trans (List.suffix_cons ch file)
  drained file hit := by
    induction file with
    | nil => rfl
    | cons ch file ih =>
      rw [cleanup] at hit ⊢
      split at hit
      · cases hit
      · rename_i different
        rw [if_neg different]
        exact ih hit
  frame file later full := by
    induction file with
    | nil => cases full
    | cons ch file ih =>
      rw [List.cons_append, cleanup, cleanup]
      rw [cleanup] at full
      split
      · rfl
      · rename_i different
        rw [if_neg different] at full
        exact ih full
  unframe file later rest full left := by
    induction file with
    | nil =>
      have consumed := cleanup_consumes full
      rw [List.nil_append] at left consumed
      rw [left, List.length_append] at consumed
      omega
    | cons ch file ih =>
      rw [List.cons_append, cleanup] at full left
      rw [cleanup]
      split
      · rfl
      · rename_i different
        rw [if_neg different] at full left
        exact ih full left

theorem regular_cleanupWith {α : Type} (value : α) : Regular (cleanupWith value) :=
  regular_bind regular_cleanup fun _ => regular_pure value

theorem gives_cleanupWith {α : Type} {property : α → Prop} {value : α} (holds : property value) :
    Gives (cleanupWith value) property :=
  gives_bind_any fun _ => gives_pure holds

/-- `cleanup` stores nothing. -/
theorem stays_cleanup : Stays cleanup := by
  intro file
  induction file with
  | nil => rfl
  | cons ch file ih =>
    rw [cleanup]
    split
    · rfl
    · exact ih

theorem stays_cleanupWith {α : Type} (value : α) : Stays (cleanupWith value) :=
  stays_bind stays_cleanup fun _ => stays_pure value

theorem regular_readStringLoop (capacity room : ℕ) :
    ∀ buffer, Regular (readStringLoop capacity room buffer) := by
  induction room with
  | zero => exact fun buffer => regular_bind (regular_store _ _) fun _ => regular_pure _
  | succ room ih =>
    intro buffer
    refine regular_bind (regular_read 1) fun bytesRead => ?_
    cases bytesRead with
    | nil => exact regular_pure _
    | cons ch _ =>
      have ends : ∀ code : Int, Regular (do
          store buffer.length capacity
          return (code, buffer) : Parse (Int × List Byte)) :=
        fun code => regular_bind (regular_store _ _) fun _ => regular_pure _
      refine regular_ite (regular_pure _) (regular_ite (ends 0) (regular_ite (ends 1)
        (regular_ite (ends 2) ?_)))
      exact regular_bind (regular_store _ _) fun _ => ih _

theorem regular_readString (capacity max : ℕ) : Regular (readString capacity max) :=
  regular_readStringLoop capacity max []

/-- The loop of `read_uint` reads at least one byte. -/
theorem readUintLoop_consumes (garbage : List Byte) {file : List Byte} :
    ∀ {buf : List Byte}, (readUintLoop garbage buf file).hitEnd = false →
      (readUintLoop garbage buf file).rest.length < file.length := by
  induction file with
  | nil => exact fun full => by cases full
  | cons ch file ih =>
    intro buf full
    rw [readUintLoop] at full ⊢
    rw [List.length_cons]
    split
    · rename_i digit
      rw [if_pos digit] at full
      exact (ih full).trans (Nat.lt_succ_self _)
    · exact Nat.lt_succ_self _

theorem regular_readUintLoop (garbage buf : List Byte) : Regular (readUintLoop garbage buf) where
  suffix file := by
    induction file generalizing buf with
    | nil => exact List.suffix_refl _
    | cons ch file ih =>
      rw [readUintLoop]
      split
      · exact (ih (buf ++ [ch])).trans (List.suffix_cons ch file)
      · exact List.suffix_cons ch file
  drained file hit := by
    induction file generalizing buf with
    | nil => rfl
    | cons ch file ih =>
      rw [readUintLoop] at hit ⊢
      split at hit
      · rename_i digit
        rw [if_pos digit]
        exact ih (buf ++ [ch]) hit
      · cases hit
  frame file later full := by
    induction file generalizing buf with
    | nil => cases full
    | cons ch file ih =>
      rw [List.cons_append, readUintLoop, readUintLoop]
      rw [readUintLoop] at full
      split
      · rename_i digit
        rw [if_pos digit] at full
        rw [ih (buf ++ [ch]) full]
      · rfl
  unframe file later rest full left := by
    induction file generalizing buf with
    | nil =>
      have consumed := readUintLoop_consumes garbage full
      rw [List.nil_append] at left consumed
      rw [left, List.length_append] at consumed
      omega
    | cons ch file ih =>
      rw [List.cons_append, readUintLoop] at full left
      rw [readUintLoop]
      split
      · rename_i digit
        rw [if_pos digit] at full left
        exact ih (buf ++ [ch]) full left
      · rfl

theorem regular_readUint (garbage : List Byte) : Regular (readUint garbage) :=
  regular_bind (regular_readUintLoop garbage []) fun _ =>
    regular_ite (regular_pure _) (regular_pure _)

/-! ### The dispatcher -/

theorem regular_keywordWithBlank (rest : List Byte) (command : Command) :
    Regular (keywordWithBlank rest command) :=
  regular_bind (regular_read _) fun _ => regular_ite (regular_pure _) (regular_cleanupWith _)

theorem regular_keywordAlone (rest : List Byte) (command : Command) :
    Regular (keywordAlone rest command) :=
  regular_bind (regular_read _) fun _ => regular_ite
    (regular_bind (regular_read 1) fun _ => regular_ite (regular_pure _) (regular_cleanupWith _))
    (regular_cleanupWith _)

theorem regular_waitOrWrite : Regular waitOrWrite :=
  regular_bind (regular_read 4) fun _ => regular_ite (regular_pure _)
    (regular_bind (regular_read 1) fun _ => regular_ite (regular_pure _) (regular_cleanupWith _))

theorem regular_commandAfter (ch : Byte) : Regular (commandAfter ch) :=
  regular_ite regular_waitOrWrite <| regular_ite (regular_keywordWithBlank _ _) <|
    regular_ite (regular_keywordWithBlank _ _) <| regular_ite (regular_keywordAlone _ _) <|
    regular_ite (regular_keywordAlone _ _) <| regular_ite (regular_keywordAlone _ _) <|
    regular_ite (regular_cleanupWith _) <| regular_ite (regular_pure _) (regular_cleanupWith _)

/-! ### The argument parsers -/

theorem regular_copyRow (buffer : List Byte) : Regular (copyRow buffer) :=
  regular_bind (regular_store _ _) fun _ => regular_pure _

theorem regular_parsePair (capacity : ℕ) : Regular (parsePair capacity) :=
  regular_bind (regular_readString _ _) fun _ => regular_ite (regular_cleanupWith _)
    (regular_bind (regular_readString _ _) fun _ => regular_ite (regular_cleanupWith _)
      (regular_pure _))

theorem regular_parseWriteLoop (stringSize room : ℕ) :
    ∀ pairs, Regular (parseWriteLoop stringSize room pairs) := by
  induction room with
  | zero => exact fun pairs => regular_pure _
  | succ room ih =>
    intro pairs
    refine regular_bind (regular_parsePair stringSize) fun pair => ?_
    cases pair with
    | none => exact regular_cleanupWith _
    | some pair =>
      exact regular_bind (regular_copyRow _) fun _ => regular_bind (regular_copyRow _) fun _ =>
        regular_bind (regular_read 1) fun _ => regular_ite (ih _)
          (regular_ite (regular_pure _) (regular_cleanupWith _))

theorem regular_parseEnd {α : Type} (max : ℕ) (items : List α) : Regular (parseEnd max items) :=
  regular_ite (regular_cleanupWith _) (regular_bind (regular_read 1) fun _ =>
    regular_ite (regular_pure _) (regular_cleanupWith _))

theorem regular_afterLoop {α : Type} (max : ℕ) (items : Option (List α)) :
    Regular (afterLoop max items) := by
  cases items with
  | none => exact regular_pure _
  | some items => exact regular_parseEnd _ _

theorem regular_parseWrite (maxPairs stringSize : ℕ) :
    Regular (parseWrite maxPairs stringSize) := by
  refine regular_bind (regular_read 1) fun _ => regular_ite (regular_cleanupWith _) ?_
  refine regular_bind (regular_read 1) fun _ => regular_ite (regular_cleanupWith _) ?_
  exact regular_bind (regular_parseWriteLoop _ _ _) fun pairs => regular_afterLoop _ pairs

theorem regular_parseKeysLoop (stringSize room : ℕ) :
    ∀ keys, Regular (parseKeysLoop stringSize room keys) := by
  induction room with
  | zero => exact fun keys => regular_pure _
  | succ room ih =>
    intro keys
    exact regular_bind (regular_readString _ _) fun _ => regular_ite (regular_cleanupWith _)
      (regular_bind (regular_copyRow _) fun _ => regular_ite (regular_pure _) (ih _))

theorem regular_parseReadDelete (maxKeys stringSize : ℕ) :
    Regular (parseReadDelete maxKeys stringSize) := by
  refine regular_bind (regular_read 1) fun _ => regular_ite (regular_cleanupWith _) ?_
  exact regular_bind (regular_parseKeysLoop _ _ _) fun keys => regular_afterLoop _ keys

theorem regular_parseWait (garbage : List Byte) (hasThread : Bool) :
    Regular (parseWait garbage hasThread) := by
  refine regular_bind (regular_readUint garbage) fun number => ?_
  obtain ⟨delay, ch⟩ := number
  cases delay with
  | none => exact regular_cleanupWith _
  | some delay =>
    exact regular_ite
      (regular_ite (regular_cleanupWith _) (regular_bind (regular_readUint garbage) fun _ =>
        regular_ite (regular_cleanupWith _) (regular_pure _)))
      (regular_ite (regular_pure _) (regular_cleanupWith _))

/-! ### One command -/

theorem regular_parseArguments (garbage : List Byte) (command : Command) :
    Regular (parseArguments garbage command) := by
  cases command with
  | write => exact regular_bind (regular_parseWrite _ _) fun _ => regular_pure _
  | read => exact regular_bind (regular_parseReadDelete _ _) fun _ => regular_pure _
  | delete => exact regular_bind (regular_parseReadDelete _ _) fun _ => regular_pure _
  | wait => exact regular_bind (regular_parseWait _ _) fun _ => regular_pure _
  | _ => exact regular_pure _

/-- `WAIT` is decided after five bytes. -/
theorem waitOrWrite_wait (rest : List Byte) :
    waitOrWrite (ascii ['A', 'I', 'T', ' '] ++ rest) = ⟨.wait, rest, false, false⟩ := by
  have got : read 4 (ascii ['A', 'I', 'T', ' '] ++ rest) =
      ⟨ascii ['A', 'I', 'T', ' '], rest, false, false⟩ :=
    read_append (ascii ['A', 'I', 'T', ' ']) rest
  rw [waitOrWrite, bind_of_clean got, if_pos rfl]
  rfl

/-- What follows the first character of a command. -/
def dispatchAfter (garbage : List Byte) (ch : Byte) : Parse (Option (Option Dispatch)) := do
  let command ← commandAfter ch
  parseArguments garbage command

theorem regular_dispatchAfter (garbage : List Byte) (ch : Byte) :
    Regular (dispatchAfter garbage ch) :=
  regular_bind (regular_commandAfter ch) fun _ => regular_parseArguments garbage _

theorem nextDispatch_cons (garbage : List Byte) (ch : Byte) (file : List Byte) :
    nextDispatch garbage (ch :: file) = dispatchAfter garbage ch file := by
  rw [nextDispatch, dispatchAfter, bind_apply, bind_apply, getNext,
    bind_of_clean (read_one_cons ch file)]

end Kvs.Server
