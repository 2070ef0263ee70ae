/-
**The buffers of `read_string`.**

Four functions have `read_string` fill a buffer of `MAX_STRING_SIZE` bytes: `parse_pair`,
`parse_write` through it, `parse_read_delete`, and the client's `parse_list`. Each of them passes
that size as `max`, and `read_string` stops after `max` bytes without a delimiter, to store the
`NUL` at index `max`. So it stays in its buffer exactly when a delimiter comes in time.

The mark `overflow` covers the stores of `read_string` and those of `strcpy`, the `NUL` of a row
included. A string is only copied after a delimiter ended it, so it fits its row: of the two, only
`read_string` leaves its buffer. For each function, `Before` is the grammar of the texts that stand
in front of a string it starts to read, and `stores_inside_iff` says that an input is safe exactly
when none of them has a string too long behind it.
-/

import Kvs.Client.ParseList

namespace Kvs

open Scanner.Scan
open Server

/-! ### `read_string` -/

/-- A string that its buffer has no room to end: no delimiter comes in time. -/
structure Long (rest : List Byte) : Prop where
  fills : maxStringSize ≤ rest.length
  undelimited : Undelimited (rest.take maxStringSize)

/-- A delimiter that comes in time ends the loop inside the buffer. -/
theorem readStringLoop_delimiter {capacity room : ℕ} {buffer : List Byte} {ch : Byte}
    (ends : ch ∈ delimiters) (inside : buffer.length < capacity) (input : List Byte) :
    (readStringLoop capacity (room + 1) buffer (ch :: input)).overflow = false := by
  have stored : ∀ code : Int,
      ((do store buffer.length capacity; return (code, buffer) : Parse (Int × List Byte))
        input).overflow = false := by
    intro code
    rw [bind_of_clean (store_inside inside input)]
    rfl
  rw [readStringLoop, bind_of_clean (read_one_cons _ _)]
  obtain rfl | rfl | rfl | rfl : ch = ' '.toUInt8 ∨ ch = ','.toUInt8 ∨ ch = ')'.toUInt8 ∨
      ch = ']'.toUInt8 := by simpa [delimiters, ascii] using ends
  · rfl
  · exact stored 0
  · exact stored 1
  · exact stored 2

/-- **The loop of `read_string`** leaves the buffer when as many bytes come as it has room for. -/
theorem readStringLoop_overflow (capacity room : ℕ) :
    ∀ buffer input : List Byte, buffer.length + room = capacity →
      ((readStringLoop capacity room buffer input).overflow = true ↔
        room ≤ input.length ∧ Undelimited (input.take room)) := by
  induction room with
  | zero =>
    intro buffer input full
    have outside : capacity ≤ buffer.length := by omega
    have overruns : (readStringLoop capacity 0 buffer input).overflow = true := by
      rw [readStringLoop, bind_apply, store, decide_eq_true outside]
      rfl
    rw [overruns]
    exact ⟨fun _ => ⟨Nat.zero_le _, fun _ member => absurd member List.not_mem_nil⟩, fun _ => rfl⟩
  | succ room ih =>
    intro buffer input full
    have inside : buffer.length < capacity := by omega
    cases input with
    | nil =>
      constructor
      · intro marked
        cases marked
      · rintro ⟨fills, _⟩
        exact absurd fills (Nat.not_succ_le_zero room)
    | cons ch input =>
      rw [List.take_succ_cons, undelimited_cons, List.length_cons, Nat.add_le_add_iff_right]
      by_cases ends : ch ∈ delimiters
      · rw [readStringLoop_delimiter ends inside]
        constructor
        · intro marked
          cases marked
        · rintro ⟨_, other, _⟩
          exact absurd ends other
      · obtain ⟨blank, comma, bracket, square⟩ : ch ≠ ' '.toUInt8 ∧ ch ≠ ','.toUInt8 ∧
            ch ≠ ')'.toUInt8 ∧ ch ≠ ']'.toUInt8 := by simpa [delimiters, ascii] using ends
        rw [readStringLoop, bind_of_clean (read_one_cons _ _)]
        simp only [if_neg blank, if_neg comma, if_neg bracket, if_neg square]
        rw [bind_of_clean (store_inside inside input),
          ih (buffer ++ [ch]) input (by rw [List.length_append, List.length_singleton]; omega)]
        exact and_congr_right fun _ => (and_iff_right ends).symm

/-- **`read_string`** leaves its buffer on a long string. -/
theorem overruns_readString : Overruns Long (readString maxStringSize maxStringSize) (· = []) := by
  intro input
  rw [readString, readStringLoop_overflow maxStringSize maxStringSize [] input rfl]
  constructor
  · rintro ⟨fills, undelimited⟩
    exact ⟨[], input, rfl, ⟨fills, undelimited⟩, rfl⟩
  · rintro ⟨_, _, rfl, long, rfl⟩
    exact ⟨long.fills, long.undelimited⟩

/-- What `read_string` reads, on any bytes. -/
theorem reads_readString_any : Reads (fun _ => True) (readString maxStringSize maxStringSize)
    (fun outcome => 0 ≤ outcome.1) (StringText maxStringSize []) :=
  reads_readStringLoop _ maxStringSize maxStringSize []

/-- A string that was ended fits its row. -/
theorem stays_copyRow {buffer : List Byte} (short : buffer.length < maxStringSize) :
    Stays (copyRow buffer) := by
  have cut : (CStr.ofBuffer buffer).length ≤ buffer.length :=
    (List.takeWhile_prefix _).length_le
  refine fun file => Bool.or_eq_false_iff.mpr ⟨decide_eq_false ?_, rfl⟩
  omega

theorem passes_copyRow_buffer (buffer : List Byte) :
    Passes (copyRow buffer) (CStr.ofBuffer buffer) := fun _ => ⟨rfl, rfl⟩

/-- **A string and what follows it**: nothing more goes wrong unless a comma ended the string. -/
theorem overruns_string {β : Type} {following : Int × List Byte → Parse β}
    {starts : List Byte → Prop}
    (comma : ∀ str, IsWord str → Overruns Long (following (0, str)) starts)
    (bracket : ∀ str, IsWord str → Stays (following (1, str)))
    (square : ∀ str, IsWord str → Stays (following (2, str)))
    (unended : ∀ outcome : Int × List Byte, outcome.1 < 0 → Stays (following outcome)) :
    Overruns Long (readString maxStringSize maxStringSize >>= following) fun before =>
      before = [] ∨ ∃ str tail, IsWord str ∧ starts tail ∧ before = str ++ ','.toUInt8 :: tail := by
  have later : ∀ (outcome : Int × List Byte) (head : List Byte), 0 ≤ outcome.1 →
      StringText maxStringSize [] outcome head →
      Overruns Long (following outcome) fun tail => outcome.1 = 0 ∧ starts tail := by
    rintro ⟨_, str⟩ _ _ ⟨_, delimiter, undelimited, short, ends, rfl, _⟩
    cases ends with
    | comma => exact (comma str ⟨short, undelimited⟩).congr fun tail => (and_iff_right rfl).symm
    | bracket => exact (overruns_never (bracket str ⟨short, undelimited⟩)).congr (by simp)
    | square => exact (overruns_never (square str ⟨short, undelimited⟩)).congr (by simp)
  refine (overruns_bind overruns_readString reads_readString_any later
    fun outcome negative => unended outcome (not_le.mp negative)).congr ?_
  refine fun before => or_congr_right ?_
  constructor
  · rintro ⟨⟨_, str⟩, _, tail, _, ⟨_, delimiter, undelimited, short, ends, rfl, rfl⟩, ⟨rfl, start⟩,
      rfl⟩
    cases ends
    exact ⟨str, tail, ⟨short, undelimited⟩, start, by simp⟩
  · rintro ⟨str, tail, word, start, rfl⟩
    exact ⟨(0, str), str ++ [','.toUInt8], tail, le_rfl,
      ⟨str, _, word.undelimited, word.short, .comma, rfl, rfl⟩, ⟨rfl, start⟩, by simp⟩

/-! ### Lists of keys -/

/-- **One round of a list loop** starts a string at once, and others behind a comma. -/
theorem overruns_listRound {β : Type} (refused : β) (closed more : Int → CStr → Parse β)
    {starts : List Byte → Prop} (one : ∀ key, Stays (closed 2 key))
    (two : ∀ key, Overruns Long (more 0 key) starts) :
    Overruns Long (do
        let (output, key) ← readString maxStringSize maxStringSize
        if output < 0 ∨ output = 1 then cleanupWith refused
        else do
          let key ← copyRow key
          if output = 2 then closed output key else more output key : Parse β)
      fun before => before = [] ∨ ∃ key tail, IsWord key ∧ starts tail ∧
        before = key ++ ','.toUInt8 :: tail := by
  apply overruns_string
  · intro key word
    exact overruns_skip (passes_copyRow_buffer key) (stays_copyRow word.short) (two _)
  · intro key _
    exact stays_cleanupWith refused
  · intro key word
    exact stays_bind (stays_copyRow word.short) one
  · intro outcome negative
    dsimp only
    rw [if_pos (.inl negative)]
    exact stays_cleanupWith refused

/-- The texts in front of a string that a loop with this room starts to read: fewer keys than it has
room for, each followed by a comma. -/
def KeysBefore (room : ℕ) (before : List Byte) : Prop :=
  ∃ keys : List (List Byte), keys.length < room ∧ (∀ key ∈ keys, IsWord key) ∧
    before = keys.flatMap fun key => key ++ [','.toUInt8]

theorem keysBefore_zero (before : List Byte) : KeysBefore 0 before ↔ False :=
  ⟨fun ⟨_, fewer, _⟩ => Nat.not_lt_zero _ fewer, False.elim⟩

/-- The first string, or one behind a first key. -/
theorem keysBefore_succ {room : ℕ} {before : List Byte} :
    KeysBefore (room + 1) before ↔ before = [] ∨ ∃ key tail, IsWord key ∧ KeysBefore room tail ∧
      before = key ++ ','.toUInt8 :: tail := by
  constructor
  · rintro ⟨keys, fewer, words, rfl⟩
    cases keys with
    | nil => exact .inl rfl
    | cons key keys =>
      obtain ⟨word, words⟩ := List.forall_mem_cons.mp words
      exact .inr ⟨key, _, word, ⟨keys, by simpa using fewer, words, rfl⟩, by simp⟩
  · rintro (rfl | ⟨key, _, word, ⟨keys, fewer, words, rfl⟩, rfl⟩)
    · exact ⟨[], Nat.succ_pos room, fun _ member => absurd member List.not_mem_nil, rfl⟩
    · exact ⟨key :: keys, by simpa using fewer, List.forall_mem_cons.mpr ⟨word, words⟩, by simp⟩

/-- The loop of `parse_read_delete`. -/
theorem overruns_parseKeysLoop (room : ℕ) (earlier : List CStr) :
    Overruns Long (parseKeysLoop maxStringSize room earlier) (KeysBefore room) := by
  induction room generalizing earlier with
  | zero => exact (overruns_never (stays_pure _)).congr fun before => (keysBefore_zero before).symm
  | succ room ih =>
    rw [parseKeysLoop]
    refine (overruns_listRound none (fun _ key => return some (earlier ++ [key]))
      (fun _ key => parseKeysLoop maxStringSize room (earlier ++ [key]))
      (fun _ => stays_pure _) fun key => ih (earlier ++ [key])).congr fun before => ?_
    exact keysBefore_succ.symm

/-- The loop of `parse_list`. -/
theorem overruns_parseListLoop (room : ℕ) (output : Int) (earlier : List CStr) :
    Overruns Long (Client.parseListLoop maxStringSize room output earlier) (KeysBefore room) := by
  induction room generalizing output earlier with
  | zero => exact (overruns_never (stays_pure _)).congr fun before => (keysBefore_zero before).symm
  | succ room ih =>
    rw [Client.parseListLoop]
    refine (overruns_listRound none (fun output key => return some (output, earlier ++ [key]))
      (fun output key => Client.parseListLoop maxStringSize room output (earlier ++ [key]))
      (fun _ => stays_pure _) fun key => ih 0 (earlier ++ [key])).congr fun before => ?_
    exact keysBefore_succ.symm

/-! ### Pairs -/

/-- The texts in front of a string of a pair: nothing, or the key and the comma. -/
def PairBefore (before : List Byte) : Prop :=
  before = [] ∨ ∃ key, IsWord key ∧ before = key ++ [','.toUInt8]

/-- **`parse_pair`** starts two strings. -/
theorem overruns_parsePair : Overruns Long (parsePair maxStringSize) PairBefore := by
  have value : ∀ key, Overruns Long (do
      let (code, value) ← readString maxStringSize maxStringSize
      if code ≠ 1 then cleanupWith none else return some (key, value) :
        Parse (Option (List Byte × List Byte))) (· = []) := fun key =>
    overruns_then overruns_readString fun got => stays_ite (stays_cleanupWith _) (stays_pure _)
  have key : Overruns Long (parsePair maxStringSize) fun before => before = [] ∨
      ∃ key tail, IsWord key ∧ tail = [] ∧ before = key ++ ','.toUInt8 :: tail := by
    apply overruns_string
    · exact fun key _ => value key
    · exact fun key _ => stays_cleanupWith none
    · exact fun key _ => stays_cleanupWith none
    · intro outcome negative
      dsimp only
      rw [if_pos negative.ne]
      exact stays_cleanupWith none
  refine key.congr fun before => or_congr_right ?_
  constructor
  · rintro ⟨key, _, word, rfl, rfl⟩
    exact ⟨key, word, rfl⟩
  · rintro ⟨key, word, rfl⟩
    exact ⟨key, [], word, rfl, rfl⟩

/-- The texts in front of a string of a list of pairs, the first opening bracket left out: fewer
pairs than the loop has room for, each followed by the next bracket, and what stands in front of the
string in its pair. -/
def PairsBefore (room : ℕ) (before : List Byte) : Prop :=
  ∃ (pairs : List (List Byte × List Byte)) (start : List Byte), pairs.length < room ∧
    (∀ pair ∈ pairs, IsWord pair.1 ∧ IsWord pair.2) ∧ PairBefore start ∧
    before = (pairs.flatMap fun pair =>
      pair.1 ++ [','.toUInt8] ++ pair.2 ++ [')'.toUInt8, '('.toUInt8]) ++ start

theorem pairsBefore_zero (before : List Byte) : PairsBefore 0 before ↔ False :=
  ⟨fun ⟨_, _, fewer, _⟩ => Nat.not_lt_zero _ fewer, False.elim⟩

/-- The first pair, or one behind it. -/
theorem pairsBefore_succ {room : ℕ} {before : List Byte} :
    PairsBefore (room + 1) before ↔ PairBefore before ∨ ∃ key value tail, IsWord key ∧
      IsWord value ∧ PairsBefore room tail ∧
      before = key ++ ','.toUInt8 :: (value ++ [')'.toUInt8]) ++ '('.toUInt8 :: tail := by
  constructor
  · rintro ⟨pairs, start, fewer, words, isStart, rfl⟩
    cases pairs with
    | nil => exact .inl isStart
    | cons pair pairs =>
      obtain ⟨word, words⟩ := List.forall_mem_cons.mp words
      exact .inr ⟨pair.1, pair.2, _, word.1, word.2,
        ⟨pairs, start, by simpa using fewer, words, isStart, rfl⟩, by simp⟩
  · rintro (isStart | ⟨key, value, _, keyWord, valueWord, ⟨pairs, start, fewer, words, isStart,
      rfl⟩, rfl⟩)
    · exact ⟨[], before, Nat.succ_pos room, fun _ member => absurd member List.not_mem_nil, isStart,
        rfl⟩
    · exact ⟨(key, value) :: pairs, start, by simpa using fewer,
        List.forall_mem_cons.mpr ⟨⟨keyWord, valueWord⟩, words⟩, isStart, by simp⟩

/-- What follows a pair: a bracket opens the next one. -/
theorem overruns_afterPair {β : Type} (refused : β) {more closed : Parse β}
    {starts : List Byte → Prop} (one : Overruns Long more starts) (two : Stays closed) :
    Overruns Long (do
        let ch ← read 1
        if ch = ascii ['('] then more else if ch = ascii [']'] then closed
        else cleanupWith refused : Parse β)
      fun before => ∃ tail, starts tail ∧ before = '('.toUInt8 :: tail := by
  have bracket : ascii ['('] = ['('.toUInt8] := rfl
  apply overruns_expected
  · rwa [if_pos bracket.symm]
  · intro tokens other
    rw [bracket, if_neg other]
    exact stays_ite two (stays_cleanupWith refused)

/-- **A pair and what follows it**: nothing more goes wrong when `parse_pair` failed. -/
theorem overruns_pair {β : Type} {following : Option (List Byte × List Byte) → Parse β}
    {starts : List Byte → Prop}
    (paired : ∀ key value, IsWord key → IsWord value →
      Overruns Long (following (some (key, value))) starts)
    (failed : Stays (following none)) :
    Overruns Long (parsePair maxStringSize >>= following) fun before => PairBefore before ∨
      ∃ key value tail, IsWord key ∧ IsWord value ∧ starts tail ∧
        before = key ++ ','.toUInt8 :: (value ++ [')'.toUInt8]) ++ tail := by
  have later : ∀ (got : Option (List Byte × List Byte)) (head : List Byte), got ≠ none →
      (∃ key value, IsWord key ∧ IsWord value ∧ got = some (key, value) ∧
        head = key ++ ','.toUInt8 :: (value ++ [')'.toUInt8])) →
      Overruns Long (following got) starts := by
    rintro _ _ _ ⟨key, value, keyWord, valueWord, rfl, _⟩
    exact paired key value keyWord valueWord
  have refused : ∀ got : Option (List Byte × List Byte), ¬ got ≠ none → Stays (following got) := by
    intro got nothing
    rw [not_not.mp nothing]
    exact failed
  refine (overruns_bind overruns_parsePair (reads_parsePair_words _) later refused).congr ?_
  refine fun before => or_congr_right ?_
  constructor
  · rintro ⟨_, _, tail, _, ⟨key, value, keyWord, valueWord, rfl, rfl⟩, start, rfl⟩
    exact ⟨key, value, tail, keyWord, valueWord, start, rfl⟩
  · rintro ⟨key, value, tail, keyWord, valueWord, start, rfl⟩
    exact ⟨some (key, value), _, tail, by simp, ⟨key, value, keyWord, valueWord, rfl, rfl⟩, start,
      rfl⟩

/-- The loop of `parse_write`. -/
theorem overruns_parseWriteLoop (room : ℕ) (earlier : List (CStr × CStr)) :
    Overruns Long (parseWriteLoop maxStringSize room earlier) (PairsBefore room) := by
  induction room generalizing earlier with
  | zero => exact (overruns_never (stays_pure _)).congr fun before => (pairsBefore_zero before).symm
  | succ room ih =>
    have round : Overruns Long (parseWriteLoop maxStringSize (room + 1) earlier) fun before =>
        PairBefore before ∨ ∃ key value tail, IsWord key ∧ IsWord value ∧
          (∃ tail', PairsBefore room tail' ∧ tail = '('.toUInt8 :: tail') ∧
          before = key ++ ','.toUInt8 :: (value ++ [')'.toUInt8]) ++ tail := by
      rw [parseWriteLoop]
      apply overruns_pair
      · intro key value keyWord valueWord
        refine overruns_skip (passes_copyRow_buffer key) (stays_copyRow keyWord.short) ?_
        refine overruns_skip (passes_copyRow_buffer value) (stays_copyRow valueWord.short) ?_
        exact overruns_afterPair none (ih _) (stays_pure _)
      · exact stays_cleanupWith none
    refine round.congr fun before => ?_
    rw [pairsBefore_succ]
    refine or_congr_right ?_
    constructor
    · rintro ⟨key, value, _, keyWord, valueWord, ⟨tail, start, rfl⟩, rfl⟩
      exact ⟨key, value, tail, keyWord, valueWord, start, rfl⟩
    · rintro ⟨key, value, tail, keyWord, valueWord, start, rfl⟩
      exact ⟨key, value, _, keyWord, valueWord, ⟨tail, start, rfl⟩, rfl⟩

/-! ### The functions -/

/-- A byte that must stand in front. -/
theorem overruns_expect {β : Type} {expected : Byte} (refused : β) {following : Parse β}
    {starts : List Byte → Prop} (one : Overruns Long following starts) :
    Overruns Long (do
        let ch ← read 1
        if ch ≠ [expected] then cleanupWith refused else following : Parse β)
      fun before => ∃ tail, starts tail ∧ before = expected :: tail := by
  apply overruns_expected
  · rwa [if_neg fun different => different rfl]
  · intro tokens other
    rw [if_pos other]
    exact stays_cleanupWith refused

theorem stays_afterLoop {α : Type} (max : ℕ) (outcome : Option (List α)) :
    Stays (afterLoop max outcome) := by
  cases outcome with
  | none => exact stays_pure []
  | some items =>
    exact stays_ite (stays_cleanupWith []) (stays_bind (stays_read 1) fun _ =>
      stays_ite (stays_pure items) (stays_cleanupWith []))

theorem stays_afterListLoop (max : ℕ) (outcome : Option (Int × List CStr)) :
    Stays (Client.afterListLoop max outcome) := by
  cases outcome with
  | none => exact stays_pure []
  | some outcome =>
    exact stays_ite (stays_cleanupWith []) (stays_bind (stays_read 1) fun _ =>
      stays_ite (stays_pure outcome.2) (stays_cleanupWith []))

/-- The functions that call `read_string`, with the sizes of the arrays they fill. -/
inductive StringCaller where
  | parsePair
  | parseWrite (maxPairs : ℕ)
  | parseReadDelete (maxKeys : ℕ)
  | parseList (maxKeys : ℕ)
deriving DecidableEq

/-- The function, on this input, stores outside the buffers of its strings or outside its rows. -/
def StringCaller.overflow : StringCaller → List Byte → Bool
  | .parsePair, input => (Server.parsePair maxStringSize input).overflow
  | .parseWrite maxPairs, input => (Server.parseWrite maxPairs maxStringSize input).overflow
  | .parseReadDelete maxKeys, input =>
    (Server.parseReadDelete maxKeys maxStringSize input).overflow
  | .parseList maxKeys, input => (Client.parseList maxKeys maxStringSize input).overflow

/-- The texts in front of a string that the function starts to read. -/
def StringCaller.Before : StringCaller → List Byte → Prop
  | .parsePair, before => PairBefore before
  | .parseWrite maxPairs, before =>
    ∃ tail, PairsBefore maxPairs tail ∧ before = '['.toUInt8 :: '('.toUInt8 :: tail
  | .parseReadDelete maxKeys, before | .parseList maxKeys, before =>
    ∃ tail, KeysBefore maxKeys tail ∧ before = '['.toUInt8 :: tail

/-- A string that the function starts to read on this input is too long. -/
def StringCaller.Overlong (caller : StringCaller) (input : List Byte) : Prop :=
  ∃ before rest, caller.Before before ∧ Long rest ∧ input = before ++ rest

/-- **Where the functions leave their buffers.** -/
theorem overflow_iff (caller : StringCaller) (input : List Byte) :
    caller.overflow input = true ↔ caller.Overlong input := by
  cases caller with
  | parsePair => exact overruns_parsePair input
  | parseWrite maxPairs =>
    have loop : Overruns Long (do
        let pairs ← parseWriteLoop maxStringSize maxPairs []
        afterLoop maxPairs pairs) (PairsBefore maxPairs) :=
      overruns_then (overruns_parseWriteLoop maxPairs []) (stays_afterLoop maxPairs)
    refine (overruns_expect [] (overruns_expect [] loop)).congr (fun before => ?_) input
    constructor
    · rintro ⟨_, ⟨tail, start, rfl⟩, rfl⟩
      exact ⟨tail, start, rfl⟩
    · rintro ⟨tail, start, rfl⟩
      exact ⟨_, ⟨tail, start, rfl⟩, rfl⟩
  | parseReadDelete maxKeys =>
    exact overruns_expect [] (overruns_then (overruns_parseKeysLoop maxKeys [])
      (stays_afterLoop maxKeys)) input
  | parseList maxKeys =>
    exact overruns_expect [] (overruns_then (overruns_parseListLoop maxKeys 2 [])
      (stays_afterListLoop maxKeys)) input

/-- **Strings stay in their buffers and rows** exactly when none that a function starts to read is
too long. -/
theorem stores_inside_iff (caller : StringCaller) (input : List Byte) :
    caller.overflow input = false ↔ ¬ caller.Overlong input := by
  rw [← overflow_iff, Bool.not_eq_true]

/-- `READ` of a key of forty letters. -/
def fortyLetters : List Byte := '['.toUInt8 :: List.replicate 40 'k'.toUInt8

/-- The fortieth letter fills the buffer, and the `NUL` is stored behind it. -/
theorem fortyLetters_overrun : ¬ ∀ (caller : StringCaller) (input : List Byte),
    caller.overflow input = false := by
  intro inside
  have undelimited : Undelimited (List.replicate 40 'k'.toUInt8) := by
    intro byte member
    rw [List.eq_of_mem_replicate member]
    decide
  have long : Long (List.replicate 40 'k'.toUInt8) := ⟨by decide, undelimited⟩
  have overlong : (StringCaller.parseReadDelete maxWriteSize).Overlong fortyLetters :=
    ⟨['['.toUInt8], _, ⟨[], ⟨[], by decide, fun _ member => absurd member List.not_mem_nil, rfl⟩,
      rfl⟩, long, rfl⟩
  have overruns := (overflow_iff _ _).mpr overlong
  rw [inside] at overruns
  cases overruns

end Kvs
