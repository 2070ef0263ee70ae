/-
**Where a command ends on its line.**

A command of a job file should end at the newline of its line. The parser has no line structure: it
stops where its functions stop. `commandEnd` reads off the text of a line where that is:

* at the newline, with the command taken for a valid one (`Ending.taken`) or reported as invalid
  (`Ending.refused`), as most errors are;
* behind a NUL (`Ending.atNul`), which the parsers take for a newline: what is left of the line is
  parsed as a further command;
* nowhere on the line (`none`). A keyword cut short by the newline, a missing bracket, a string that
  is not ended on the line, an error inside a pair and a `WAIT` of more than `UINT_MAX` are found on
  or behind the newline, and `cleanup` then reads on to the next one. A string of `40` bytes and a
  numeral of `16` digits overrun their buffers, and count here too.

`Confined` lines are those all of whose commands end on them. `nextDispatch_ends` relates the text
to the parser.
-/

import Kvs.Job.Numerals
import Kvs.Job.Trace

namespace Kvs.Server

open Scanner (Scan Scanned)
open Scanner.Scan

/-- Where a command ends on its line. -/
inductive Ending where
  /-- At the newline, taken for a valid command, a comment or an empty line. -/
  | taken
  /-- At the newline, reported as invalid. -/
  | refused
  /-- Behind a NUL, with what is left of the line. -/
  | atNul (left : List Byte)
deriving DecidableEq

/-- The bytes of the line behind the end of the command, its newline included. -/
def Ending.left : Ending → List Byte
  | .taken | .refused => []
  | .atNul left => left ++ [newline]

/-! ### The text of a line -/

/-- A byte that ends a string. -/
def isDelimiter (byte : Byte) : Prop :=
  byte = ' '.toUInt8 ∨ byte = ','.toUInt8 ∨ byte = ')'.toUInt8 ∨ byte = ']'.toUInt8

instance (byte : Byte) : Decidable (isDelimiter byte) := by
  unfold isDelimiter
  infer_instance

/-- The delimiter that ends a string, and what follows it; none when it is not among the first
`room` bytes of the line. -/
def stringEnd : ℕ → List Byte → Option (Byte × List Byte)
  | 0, _ => none
  | _ + 1, [] => none
  | room + 1, ch :: text => if isDelimiter ch then some (ch, text) else stringEnd room text

/-- What follows a string ended by the given delimiter. -/
def stringEndAt (delimiter : Byte) (text : List Byte) : Option (List Byte) :=
  (stringEnd maxStringSize text).bind fun (ch, text) => if ch = delimiter then some text else none

/-- What follows a pair, its opening bracket left out. -/
def pairEnd (text : List Byte) : Option (List Byte) :=
  (stringEndAt ','.toUInt8 text).bind (stringEndAt ')'.toUInt8)

/-- Behind the closing square bracket. -/
def closeEnd : List Byte → Ending
  | [] => .taken
  | ch :: left => if ch = nul then .atNul left else .refused

/-- Pairs, with room for so many more. -/
def pairsEnd : ℕ → List Byte → Option Ending
  | 0, _ => some .refused
  | room + 1, text =>
    match pairEnd text with
    | none | some [] => none
    | some (ch :: text) =>
      if ch = '('.toUInt8 then pairsEnd room text
      else if ch = ']'.toUInt8 ∧ room ≠ 0 then some (closeEnd text)
      else some .refused

/-- Keys, with room for so many more. -/
def keysEnd : ℕ → List Byte → Option Ending
  | 0, _ => some .refused
  | room + 1, text =>
    match stringEnd maxStringSize text with
    | none => none
    | some (ch, text) =>
      if ch = ','.toUInt8 then keysEnd room text
      else if ch = ']'.toUInt8 ∧ room ≠ 0 then some (closeEnd text)
      else some .refused

/-- A byte that must stand first, and what follows it. -/
def expectEnd (expected : Byte) (following : List Byte → Option Ending) : List Byte → Option Ending
  | [] => none
  | ch :: text => if ch = expected then following text else some .refused

/-- The arguments of `WRITE`. -/
def writeEnd : List Byte → Option Ending :=
  expectEnd '['.toUInt8 (expectEnd '('.toUInt8 (pairsEnd maxWriteSize))

/-- The arguments of `READ` and `DELETE`. -/
def readDeleteEnd : List Byte → Option Ending := expectEnd '['.toUInt8 (keysEnd maxWriteSize)

/-- The argument of `WAIT`. -/
def waitEnd (text : List Byte) : Option Ending :=
  let digits := text.takeWhile isDigit
  if uintBufferSize ≤ digits.length then none
  else match text.dropWhile isDigit with
    | [] => if digitsValue digits ≤ uintMax then some .taken else none
    | ch :: left =>
      if uintMax < digitsValue digits then some .refused
      else if ch = nul then some (.atNul left)
      else if ch = ' '.toUInt8 then some .taken
      else some .refused

/-- The rest of a keyword, and what follows it. -/
def keywordEnd (keyword : List Byte) (following : List Byte → Option Ending) (text : List Byte) :
    Option Ending :=
  if text.length < keyword.length then none
  else if text.take keyword.length = keyword then following (text.drop keyword.length)
  else some .refused

/-- Nothing but the newline. -/
def nothingEnd : List Byte → Option Ending
  | [] => some .taken
  | _ :: _ => some .refused

/-- The command a line starts with. -/
def commandEnd : List Byte → Option Ending
  | [] => some .taken
  | ch :: text =>
    if ch = 'W'.toUInt8 then
      if text.take 4 = ascii ['A', 'I', 'T', ' '] then waitEnd (text.drop 4)
      else keywordEnd (ascii ['R', 'I', 'T', 'E', ' ']) writeEnd text
    else if ch = 'R'.toUInt8 then keywordEnd (ascii ['E', 'A', 'D', ' ']) readDeleteEnd text
    else if ch = 'D'.toUInt8 then
      keywordEnd (ascii ['E', 'L', 'E', 'T', 'E', ' ']) readDeleteEnd text
    else if ch = 'S'.toUInt8 then
      keywordEnd (ascii ['H', 'O', 'W']) nothingEnd text
    else if ch = 'B'.toUInt8 then
      keywordEnd (ascii ['A', 'C', 'K', 'U', 'P']) nothingEnd text
    else if ch = 'H'.toUInt8 then
      keywordEnd (ascii ['E', 'L', 'P']) nothingEnd text
    else if ch = '#'.toUInt8 then some .taken
    else some .refused

/-- Every command on the line ends on the line. -/
inductive Confined : List Byte → Prop where
  | taken {line : List Byte} (ends : commandEnd line = some .taken) : Confined line
  | refused {line : List Byte} (ends : commandEnd line = some .refused) : Confined line
  | atNul {line left : List Byte} (ends : commandEnd line = some (.atNul left))
      (again : Confined left) : Confined line

/-! ### A scan on one line -/

/-- The scan did not end on the line: it overran a buffer, or it read on and gave what it gives on
an error. -/
def Escapes {α : Type} (result : Scanned Byte α) (bad : α → Prop) : Prop :=
  result.overflow = true ∨ (result.hitEnd = true ∧ bad result.val)

/-- The scan ended where the text says, and gave what it gives on an error when it says so. -/
def EndsAt {α : Type} (result : Scanned Byte α) (bad : α → Prop) : Option Ending → Prop
  | some ending => result.rest = ending.left ∧ result.hitEnd = false ∧ result.overflow = false ∧
      (bad result.val ↔ ending = .refused)
  | none => Escapes result bad

/-- The scan ended with a value that is no error. -/
theorem endsAt_good {α : Type} {value : α} (bad : α → Prop) (good : ¬ bad value)
    (ending : Ending) (valid : ending ≠ .refused) :
    EndsAt ⟨value, ending.left, false, false⟩ bad (some ending) :=
  ⟨rfl, rfl, rfl, iff_of_false good valid⟩

/-- The scan ended with an error, at the newline. -/
theorem endsAt_bad {α : Type} {value : α} {bad : α → Prop} (failed : bad value) :
    EndsAt ⟨value, [], false, false⟩ bad (some .refused) :=
  ⟨rfl, rfl, rfl, iff_of_true failed rfl⟩

section Rules

variable {α β : Type} {first : Parse α} {second : α → Parse β} {file : List Byte} {bad : β → Prop}

theorem escapes_bind (badFirst : α → Prop) (one : Escapes (first file) badFirst)
    (two : ∀ value, badFirst value → Gives (second value) bad) :
    Escapes ((first >>= second) file) bad := by
  rw [bind_apply]
  rcases one with overrun | ⟨hit, failed⟩
  · exact Or.inl (by rw [overrun]; rfl)
  · exact Or.inr ⟨by rw [hit]; rfl, two _ failed _⟩

/-- A value that is only mapped. -/
theorem endsAt_map {badFirst : α → Prop} {ending : Option Ending}
    (one : EndsAt (first file) badFirst ending) {map : α → β} (failed : ∀ value, badFirst value ↔
      bad (map value)) : EndsAt ((first >>= fun value => pure (map value)) file) bad ending := by
  cases ending with
  | none => exact escapes_bind _ one fun value given => gives_pure ((failed value).mp given)
  | some ending =>
    obtain ⟨rest, full, fits, told⟩ := one
    rw [bind_apply]
    exact ⟨rest, by rw [full]; rfl, by rw [fits]; rfl, (failed _).symm.trans told⟩

/-- `cleanup` on the line. -/
theorem cleanupWith_line {line : List Byte} (oneLine : newline ∉ line) (value : β) :
    cleanupWith value (line ++ [newline]) = ⟨value, [], false, false⟩ := by
  rw [cleanupWith, bind_of_clean (cleanup_line line [] oneLine)]
  rfl

theorem endsAt_cleanupWith {line : List Byte} (oneLine : newline ∉ line) {value : β}
    (failed : bad value) : EndsAt (cleanupWith value (line ++ [newline])) bad (some .refused) := by
  rw [cleanupWith_line oneLine]
  exact endsAt_bad failed

/-- `cleanup` behind the newline. -/
theorem escapes_cleanupWith (bad : β → Prop) {value : β} (failed : bad value) :
    Escapes (cleanupWith value []) bad :=
  Or.inr ⟨rfl, failed⟩

end Rules

/-! ### Strings -/

/-- The code of a delimiter. -/
def delimiterCode (delimiter : Byte) : Int :=
  if delimiter = ' '.toUInt8 then -1
  else if delimiter = ','.toUInt8 then 0
  else if delimiter = ')'.toUInt8 then 1
  else 2

theorem delimiterCode_inj {first second : Byte} (one : isDelimiter first) (two : isDelimiter second)
    (same : delimiterCode first = delimiterCode second) : first = second := by
  rcases one with rfl | rfl | rfl | rfl <;> rcases two with rfl | rfl | rfl | rfl <;>
    first | rfl | exact absurd same (by decide)

theorem stringEnd_isDelimiter {room : ℕ} {text left : List Byte} {delimiter : Byte}
    (ended : stringEnd room text = some (delimiter, left)) : isDelimiter delimiter := by
  induction room generalizing text with
  | zero => cases ended
  | succ room ih =>
    cases text with
    | nil => cases ended
    | cons ch text =>
      rw [stringEnd] at ended
      split at ended
      · rename_i delimits
        cases ended
        exact delimits
      · exact ih ended

theorem stringEnd_suffix {room : ℕ} {text left : List Byte} {delimiter : Byte}
    (ended : stringEnd room text = some (delimiter, left)) : left <:+ text := by
  induction room generalizing text with
  | zero => cases ended
  | succ room ih =>
    cases text with
    | nil => cases ended
    | cons ch text =>
      rw [stringEnd] at ended
      split at ended
      · cases ended
        exact List.suffix_cons _ _
      · exact (ih ended).trans (List.suffix_cons ch text)

theorem readStringLoop_ends {capacity room : ℕ} {text left buffer : List Byte} {delimiter : Byte}
    (ended : stringEnd room text = some (delimiter, left)) (fits : buffer.length + room = capacity)
    (behind : List Byte) :
    ∃ string, readStringLoop capacity room buffer (text ++ behind) =
      ⟨(delimiterCode delimiter, string), left ++ behind, false, false⟩ ∧
      string.length < capacity := by
  induction room generalizing text buffer with
  | zero => cases ended
  | succ room ih =>
    cases text with
    | nil => cases ended
    | cons ch text =>
      have inside : buffer.length < capacity := by omega
      rw [List.cons_append, readStringLoop, bind_of_clean (read_one_cons _ _)]
      rw [stringEnd] at ended
      split at ended
      · rename_i delimits
        cases ended
        refine ⟨buffer, ?_, inside⟩
        have stored := store_inside inside (left ++ behind)
        rcases delimits with rfl | rfl | rfl | rfl
        · rfl
        · exact bind_of_clean stored
        · exact bind_of_clean stored
        · exact bind_of_clean stored
      · rename_i plain
        unfold isDelimiter at plain
        push Not at plain
        obtain ⟨notBlank, notComma, notBracket, notSquare⟩ := plain
        simp only [if_neg notBlank, if_neg notComma, if_neg notBracket, if_neg notSquare]
        rw [bind_of_clean (store_inside inside _)]
        exact ih ended (by rw [List.length_append, List.length_singleton]; omega)

/-- A string that is not ended on the line overruns its buffer or reads on. -/
theorem readStringLoop_escapes {capacity room : ℕ} {text buffer : List Byte}
    (unended : stringEnd room text = none) (fits : buffer.length + room = capacity) :
    Escapes (readStringLoop capacity room buffer (text ++ [newline]))
      (fun read => read.1 = -1) := by
  induction room generalizing text buffer with
  | zero => exact Or.inl (by simp [readStringLoop, bind_apply, store, ← fits])
  | succ room ih =>
    have inside : buffer.length < capacity := by omega
    cases text with
    | nil =>
      rw [List.nil_append, readStringLoop, bind_of_clean (read_one_cons _ _)]
      show Escapes ((store buffer.length capacity >>= _) []) _
      rw [bind_of_clean (store_inside inside _)]
      cases room with
      | zero =>
        have full : capacity ≤ (buffer ++ [newline]).length := by
          rw [List.length_append, List.length_singleton, fits]
        exact Or.inl (Bool.or_eq_true_iff.mpr (Or.inl (decide_eq_true full)))
      | succ room => exact Or.inr ⟨rfl, rfl⟩
    | cons ch text =>
      rw [stringEnd] at unended
      split at unended
      · cases unended
      · rename_i plain
        unfold isDelimiter at plain
        push Not at plain
        obtain ⟨notBlank, notComma, notBracket, notSquare⟩ := plain
        rw [List.cons_append, readStringLoop, bind_of_clean (read_one_cons _ _)]
        simp only [if_neg notBlank, if_neg notComma, if_neg notBracket, if_neg notSquare]
        rw [bind_of_clean (store_inside inside _)]
        exact ih unended (by rw [List.length_append, List.length_singleton]; omega)

/-- **`read_string`** ends at the first delimiter of the line. -/
theorem readString_ends {text left : List Byte} {delimiter : Byte}
    (ended : stringEnd maxStringSize text = some (delimiter, left)) (behind : List Byte) :
    ∃ string, readString maxStringSize maxStringSize (text ++ behind) =
      ⟨(delimiterCode delimiter, string), left ++ behind, false, false⟩ ∧
      string.length < maxStringSize :=
  readStringLoop_ends ended (Nat.zero_add _) behind

theorem readString_escapes {text : List Byte} (unended : stringEnd maxStringSize text = none) :
    Escapes (readString maxStringSize maxStringSize (text ++ [newline]))
      (fun read => read.1 = -1) :=
  readStringLoop_escapes unended (Nat.zero_add _)

/-- A string shorter than a row is copied inside it. -/
theorem copyRow_short {buffer : List Byte} (short : buffer.length < maxStringSize)
    (file : List Byte) : copyRow buffer file = ⟨CStr.ofBuffer buffer, file, false, false⟩ := by
  have inside : (CStr.ofBuffer buffer).length < maxStringSize :=
    (List.takeWhile_prefix _).length_le.trans_lt short
  rw [copyRow, bind_of_clean (store_inside inside file)]
  rfl

/-! ### Pairs -/

theorem stringEndAt_eq_some {delimiter : Byte} {text left : List Byte} :
    stringEndAt delimiter text = some left ↔
      stringEnd maxStringSize text = some (delimiter, left) := by
  rw [stringEndAt, Option.bind_eq_some_iff]
  constructor
  · rintro ⟨⟨ch, behind⟩, ended, kept⟩
    obtain ⟨same, equal⟩ := Option.ite_none_right_eq_some.mp kept
    cases equal
    exact same ▸ ended
  · exact fun ended => ⟨_, ended, if_pos rfl⟩

/-- A string of the line that is not ended by the delimiter expected: its code tells, and `cleanup`
leaves nothing of the line. -/
theorem readString_unexpected {delimiter : Byte} {text : List Byte} (oneLine : newline ∉ text)
    (delimits : isDelimiter delimiter) (visible : delimiter ≠ ' '.toUInt8)
    (unended : stringEndAt delimiter text = none) :
    (readString maxStringSize maxStringSize (text ++ [newline])).overflow = true ∨
      ((readString maxStringSize maxStringSize (text ++ [newline])).val.1 ≠
          delimiterCode delimiter ∧
        (cleanup (readString maxStringSize maxStringSize (text ++ [newline])).rest).rest = []) := by
  cases ended : stringEnd maxStringSize text with
  | none =>
    rcases readString_escapes ended with overrun | ⟨hit, code⟩
    · exact Or.inl overrun
    · refine Or.inr ⟨?_, ?_⟩
      · rw [code]
        rcases delimits with rfl | rfl | rfl | rfl
        · exact absurd rfl visible
        all_goals decide
      · rw [(regular_readString _ _).drained _ hit]
        rfl
  | some found =>
    obtain ⟨ch, left⟩ := found
    have different : ch ≠ delimiter := by
      rintro rfl
      rw [stringEndAt_eq_some.mpr ended] at unended
      cases unended
    obtain ⟨string, stringRead, _⟩ := readString_ends ended [newline]
    refine Or.inr ?_
    rw [stringRead, cleanup_line left [] fun member =>
      oneLine ((stringEnd_suffix ended).subset member)]
    exact ⟨fun same => different (delimiterCode_inj (stringEnd_isDelimiter ended) delimits same),
      rfl⟩

theorem pairEnd_suffix {text left : List Byte} (ended : pairEnd text = some left) :
    left <:+ text := by
  obtain ⟨middle, key, value⟩ := Option.bind_eq_some_iff.mp ended
  exact (stringEnd_suffix (stringEndAt_eq_some.mp value)).trans
    (stringEnd_suffix (stringEndAt_eq_some.mp key))

/-- **`parse_pair`** ends behind the pair. -/
theorem parsePair_ends {text left : List Byte} (ended : pairEnd text = some left)
    (behind : List Byte) :
    ∃ key value, parsePair maxStringSize (text ++ behind) =
        ⟨some (key, value), left ++ behind, false, false⟩ ∧
      key.length < maxStringSize ∧ value.length < maxStringSize := by
  obtain ⟨middle, keyEnd, valueEnd⟩ := Option.bind_eq_some_iff.mp ended
  obtain ⟨key, keyRead, keyShort⟩ := readString_ends (stringEndAt_eq_some.mp keyEnd) behind
  obtain ⟨value, valueRead, valueShort⟩ := readString_ends (stringEndAt_eq_some.mp valueEnd) behind
  refine ⟨key, value, ?_, keyShort, valueShort⟩
  rw [parsePair, bind_of_clean keyRead]
  show (readString maxStringSize maxStringSize >>= _) _ = _
  rw [bind_of_clean valueRead]
  rfl

/-- `parse_pair` overran a buffer, or failed and left nothing of the line. -/
def PairFails {α : Type} (result : Scanned Byte (Option α)) : Prop :=
  result.overflow = true ∨ (result.val = none ∧ result.rest = [])

/-- One string of a pair, and what `parse_pair` does with its code. -/
theorem pairFails_string {α : Type} {delimiter : Byte} {text : List Byte}
    {following : Int × List Byte → Parse (Option α)} (oneLine : newline ∉ text)
    (delimits : isDelimiter delimiter) (visible : delimiter ≠ ' '.toUInt8)
    (unended : stringEndAt delimiter text = none)
    (refused : ∀ read, read.1 ≠ delimiterCode delimiter → following read = cleanupWith none) :
    PairFails ((readString maxStringSize maxStringSize >>= following) (text ++ [newline])) := by
  rw [bind_apply]
  rcases readString_unexpected oneLine delimits visible unended with overrun | ⟨other, cleaned⟩
  · exact Or.inl (by rw [overrun]; rfl)
  · rw [refused _ other]
    exact Or.inr ⟨rfl, cleaned⟩

/-- A line that goes on otherwise than with a pair is left behind by `parse_pair`'s own cleanup. -/
theorem parsePair_fails {text : List Byte} (oneLine : newline ∉ text)
    (unended : pairEnd text = none) :
    PairFails (parsePair maxStringSize (text ++ [newline])) := by
  rw [parsePair]
  cases keyEnd : stringEndAt ','.toUInt8 text with
  | none =>
    exact pairFails_string oneLine (by decide) (by decide) keyEnd fun _ other => if_pos other
  | some middle =>
    have ended := stringEndAt_eq_some.mp keyEnd
    obtain ⟨key, keyRead, _⟩ := readString_ends ended [newline]
    rw [pairEnd, keyEnd] at unended
    rw [bind_of_clean keyRead]
    show PairFails ((readString maxStringSize maxStringSize >>= _) _)
    exact pairFails_string (fun member => oneLine ((stringEnd_suffix ended).subset member))
      (by decide) (by decide) unended fun _ other => if_pos other

/-! ### Lists -/

/-- Behind the closing square bracket. -/
theorem parseEnd_ends {α : Type} {max : ℕ} {items : List α} {text : List Byte}
    (oneLine : newline ∉ text) (nonempty : items ≠ []) (notFull : items.length ≠ max) :
    EndsAt (parseEnd max items (text ++ [newline])) (· = []) (some (closeEnd text)) := by
  rw [parseEnd, if_neg notFull]
  cases text with
  | nil =>
    exact endsAt_good (· = []) nonempty .taken (by decide)
  | cons ch left =>
    have notNewline : ch ≠ newline := fun same => oneLine (by simp [same])
    rw [List.cons_append, bind_of_clean (read_one_cons _ _), closeEnd]
    by_cases isNul : ch = nul
    · rw [if_pos isNul, if_pos (Or.inr (by rw [isNul]))]
      exact endsAt_good (· = []) nonempty (.atNul left) (by simp)
    · rw [if_neg isNul, if_neg (by simp [notNewline, isNul])]
      exact endsAt_cleanupWith (fun member => oneLine (List.mem_cons_of_mem _ member)) rfl

/-- A full array is refused. -/
theorem parseEnd_full {α : Type} {max : ℕ} {items : List α} {text : List Byte}
    (oneLine : newline ∉ text) (full : items.length = max) :
    EndsAt (parseEnd max items (text ++ [newline])) (· = []) (some .refused) := by
  rw [parseEnd, if_pos full]
  exact endsAt_cleanupWith oneLine rfl

/-- A loop that has returned. -/
theorem bind_of_eq {α β : Type} {first first' : Parse α} {second : α → Parse β}
    {file file' : List Byte} (same : first file = first' file') :
    (first >>= second) file = (first' >>= second) file' := by
  rw [bind_apply, bind_apply, same]

/-- A loop that failed. -/
theorem afterLoop_fails {α : Type} {max : ℕ} {loop : Parse (Option (List α))} {file : List Byte}
    (failed : Escapes (loop file) (· = none)) : Escapes ((loop >>= afterLoop max) file) (· = []) :=
  escapes_bind _ failed fun _ none => none ▸ gives_pure rfl

/-- A loop that failed on the line, and cleaned it up. -/
theorem afterLoop_cleaned {α : Type} {max : ℕ} {text : List Byte} (oneLine : newline ∉ text) :
    EndsAt ((cleanupWith none >>= afterLoop (α := α) max) (text ++ [newline])) (· = [])
      (some .refused) := by
  rw [bind_of_clean (cleanupWith_line oneLine none)]
  exact endsAt_bad rfl

/-- A loop that met the closing square bracket, with room for so many more items. -/
theorem afterLoop_closed {α : Type} {max room : ℕ} {items : List α} {text : List Byte}
    (oneLine : newline ∉ text) (nonempty : items ≠ []) (count : items.length + room = max) :
    EndsAt (afterLoop max (some items) (text ++ [newline])) (· = [])
      (if room ≠ 0 then some (closeEnd text) else some .refused) := by
  split
  · exact parseEnd_ends oneLine nonempty (by omega)
  · exact parseEnd_full oneLine (by omega)

/-- **The keys of `READ` and `DELETE`** end where the text says. -/
theorem parseKeys_ends {max : ℕ} :
    ∀ {room : ℕ} {text : List Byte} {keys : List CStr}, newline ∉ text → keys.length + room = max →
      EndsAt ((parseKeysLoop maxStringSize room keys >>= afterLoop max) (text ++ [newline]))
        (· = [])
        (keysEnd room text) := by
  intro room
  induction room with
  | zero => exact fun oneLine count => parseEnd_full oneLine count
  | succ room ih =>
    intro text keys oneLine count
    rw [keysEnd]
    cases ended : stringEnd maxStringSize text with
    | none =>
      refine afterLoop_fails (escapes_bind _ (readString_escapes ended) ?_)
      rintro ⟨code, string⟩ failed
      have negative : code < 0 := by rw [show code = -1 from failed]; decide
      show Gives (if code < 0 ∨ code = 1 then _ else _) _
      rw [if_pos (Or.inl negative)]
      exact gives_bind_any fun _ => gives_pure rfl
    | some found =>
      obtain ⟨ch, left⟩ := found
      have leftLine : newline ∉ left := fun member =>
        oneLine ((stringEnd_suffix ended).subset member)
      obtain ⟨string, stringRead, short⟩ := readString_ends ended [newline]
      have counted : (keys ++ [CStr.ofBuffer string]).length + room = max := by
        rw [List.length_append, List.length_singleton]
        omega
      have round : parseKeysLoop maxStringSize (room + 1) keys (text ++ [newline]) =
          (if delimiterCode ch < 0 ∨ delimiterCode ch = 1 then cleanupWith none
          else if delimiterCode ch = 2 then return some (keys ++ [CStr.ofBuffer string])
          else parseKeysLoop maxStringSize room (keys ++ [CStr.ofBuffer string]) : Parse _)
            (left ++ [newline]) := by
        rw [parseKeysLoop, bind_of_clean stringRead]
        show (if delimiterCode ch < 0 ∨ delimiterCode ch = 1 then _ else _ : Parse _) _ = _
        split
        · rfl
        · rw [bind_of_clean (copyRow_short short _)]
      rw [bind_of_eq round]
      rcases stringEnd_isDelimiter ended with rfl | rfl | rfl | rfl
      · exact afterLoop_cleaned leftLine
      · exact ih leftLine counted
      · exact afterLoop_cleaned leftLine
      · show EndsAt (afterLoop max (some _) (left ++ [newline])) _
          (if ']'.toUInt8 = ','.toUInt8 then _ else _)
        rw [if_neg (by decide)]
        simpa only [true_and] using afterLoop_closed leftLine
          (List.append_ne_nil_of_right_ne_nil _ (List.cons_ne_nil _ _)) counted

/-- **The pairs of `WRITE`** end where the text says. -/
theorem parsePairs_ends {max : ℕ} :
    ∀ {room : ℕ} {text : List Byte} {pairs : List (CStr × CStr)}, newline ∉ text →
      pairs.length + room = max →
      EndsAt ((parseWriteLoop maxStringSize room pairs >>= afterLoop max) (text ++ [newline]))
        (· = [])
        (pairsEnd room text) := by
  intro room
  induction room with
  | zero => exact fun oneLine count => parseEnd_full oneLine count
  | succ room ih =>
    intro text pairs oneLine count
    rw [pairsEnd]
    cases ended : pairEnd text with
    | none =>
      refine afterLoop_fails ?_
      rw [parseWriteLoop, bind_apply]
      rcases parsePair_fails oneLine ended with overrun | ⟨failed, nothing⟩
      · exact Or.inl (by rw [overrun]; rfl)
      · -- the second cleanup, behind the newline
        rw [failed, nothing]
        exact Or.inr ⟨Bool.or_true _, rfl⟩
    | some left =>
      have leftLine : newline ∉ left := fun member => oneLine ((pairEnd_suffix ended).subset member)
      obtain ⟨key, value, pairRead, keyShort, valueShort⟩ := parsePair_ends ended [newline]
      let items := pairs ++ [(CStr.ofBuffer key, CStr.ofBuffer value)]
      have counted : items.length + room = max := by
        rw [List.length_append, List.length_singleton]
        omega
      have round : parseWriteLoop maxStringSize (room + 1) pairs (text ++ [newline]) =
          (read 1 >>= fun ch =>
            if ch = ascii ['('] then parseWriteLoop maxStringSize room items
            else if ch = ascii [']'] then return some items
            else cleanupWith none : Parse _) (left ++ [newline]) := by
        rw [parseWriteLoop, bind_of_clean pairRead]
        show (copyRow key >>= _) _ = _
        rw [bind_of_clean (copyRow_short keyShort _), bind_of_clean (copyRow_short valueShort _)]
      cases left with
      | nil =>
        -- the newline is read where a bracket is expected
        rw [bind_of_eq round]
        exact Or.inr ⟨rfl, rfl⟩
      | cons ch left =>
        have restLine : newline ∉ left := fun member => leftLine (List.mem_cons_of_mem _ member)
        rw [List.cons_append, bind_of_clean (read_one_cons _ _)] at round
        rw [bind_of_eq round]
        by_cases isOpen : ch = '('.toUInt8
        · subst isOpen
          exact ih restLine counted
        by_cases isClosed : ch = ']'.toUInt8
        · subst isClosed
          show EndsAt (afterLoop max (some items) (left ++ [newline])) _
            (if ']'.toUInt8 = '('.toUInt8 then _ else _)
          rw [if_neg (by decide)]
          simpa only [true_and] using afterLoop_closed restLine
            (List.append_ne_nil_of_right_ne_nil _ (List.cons_ne_nil _ _)) counted
        · simp only [isOpen, isClosed, if_false, false_and]
          rw [if_neg (by simpa using isOpen), if_neg (by simpa using isClosed)]
          exact afterLoop_cleaned restLine

/-! ### Arguments -/

/-- A byte that must stand first. -/
theorem expect_ends {α : Type} {expected : Byte} {following : List Byte → Option Ending}
    {parse : Parse (List α)} {text : List Byte} (oneLine : newline ∉ text)
    (visible : expected ≠ newline)
    (ends : ∀ left, newline ∉ left → EndsAt (parse (left ++ [newline])) (· = []) (following left)) :
    EndsAt ((read 1 >>= fun ch => if ch ≠ [expected] then cleanupWith [] else parse)
      (text ++ [newline])) (· = []) (expectEnd expected following text) := by
  cases text with
  | nil =>
    rw [List.nil_append, bind_of_clean (read_one_cons _ _), if_pos (by simp [Ne.symm visible])]
    exact escapes_cleanupWith _ rfl
  | cons ch left =>
    have leftLine : newline ∉ left := fun member => oneLine (List.mem_cons_of_mem _ member)
    rw [List.cons_append, bind_of_clean (read_one_cons _ _), expectEnd]
    by_cases same : ch = expected
    · rw [if_pos same, if_neg (by simp [same])]
      exact ends left leftLine
    · rw [if_neg same, if_pos (by simp [same])]
      exact endsAt_cleanupWith leftLine rfl

theorem parseWrite_ends {text : List Byte} (oneLine : newline ∉ text) :
    EndsAt (parseWrite maxWriteSize maxStringSize (text ++ [newline])) (· = []) (writeEnd text) :=
  expect_ends oneLine (by decide) fun _ oneLine => expect_ends oneLine (by decide)
    fun _ oneLine => parsePairs_ends oneLine (Nat.zero_add _)

theorem parseReadDelete_ends {text : List Byte} (oneLine : newline ∉ text) :
    EndsAt (parseReadDelete maxWriteSize maxStringSize (text ++ [newline])) (· = [])
      (readDeleteEnd text) :=
  expect_ends oneLine (by decide) fun _ oneLine => parseKeys_ends oneLine (Nat.zero_add _)

/-- **The argument of `WAIT`** ends where the text says. -/
theorem parseWait_ends (garbage : List Byte) {text : List Byte} (oneLine : newline ∉ text) :
    EndsAt (parseWait garbage false (text ++ [newline])) (·.code = -1) (waitEnd text) := by
  have whole := List.takeWhile_append_dropWhile (p := isDigit) (l := text)
  have areDigits := isDigit_of_mem_takeWhile text
  rw [waitEnd]
  cases after : text.dropWhile isDigit with
  | nil =>
    rw [after, List.append_nil] at whole
    rw [whole] at areDigits ⊢
    have other : isDigit newline = false := by decide
    split
    · rename_i long
      exact Or.inl ((parseWait_overflow garbage areDigits other []).trans (decide_eq_true long))
    rename_i short
    rw [parseWait, bind_of_clean (readUint_digits garbage areDigits (not_le.mp short) other [])]
    by_cases large : uintMax < digitsValue text
    · rw [if_pos large]
      simp only [if_neg (not_le.mpr large)]
      exact escapes_cleanupWith (fun result : WaitResult => result.code = -1) rfl
    · rw [if_neg large]
      simp only [if_pos (not_lt.mp large)]
      exact endsAt_good (fun result : WaitResult => result.code = -1)
        (show (0 : Int) ≠ -1 by decide) .taken (by decide)
  | cons ch left =>
    have other := not_isDigit_of_dropWhile after
    have leftLine : newline ∉ ch :: left := fun member =>
      oneLine ((List.dropWhile_suffix isDigit).subset (after ▸ member))
    have restLine : newline ∉ left := fun member => leftLine (List.mem_cons_of_mem _ member)
    have notNewline : ch ≠ newline := fun same => leftLine (by simp [same])
    have split : text ++ [newline] = text.takeWhile isDigit ++ ch :: (left ++ [newline]) := by
      rw [← List.cons_append, ← List.append_assoc, ← after, whole]
    rw [split]
    split
    · rename_i long
      exact Or.inl ((parseWait_overflow garbage areDigits other _).trans (decide_eq_true long))
    rename_i short
    rw [parseWait, bind_of_clean (readUint_digits garbage areDigits (not_le.mp short) other _)]
    by_cases large : uintMax < digitsValue (text.takeWhile isDigit)
    · rw [if_pos large]
      simp only [if_pos large]
      exact endsAt_cleanupWith restLine rfl
    rw [if_neg large]
    simp only [if_neg large]
    by_cases isNul : ch = nul
    · subst isNul
      exact endsAt_good (fun result : WaitResult => result.code = -1)
        (show (0 : Int) ≠ -1 by decide) (.atNul left) (by simp)
    · simp only [isNul, notNewline, or_self, if_false]
      split
      · show EndsAt (cleanupWith _ (left ++ [newline])) _ _
        rw [cleanupWith_line restLine]
        exact endsAt_good (fun result : WaitResult => result.code = -1)
          (show (0 : Int) ≠ -1 by decide) .taken (by decide)
      · exact endsAt_cleanupWith restLine rfl

/-! ### Commands -/

/-- What `run_job` does with an invalid command. -/
abbrev Reported (value : Option (Option Dispatch)) : Prop := value = some (some .invalid)

/-- What follows the keyword of a command that has arguments. -/
theorem parseArguments_ends (garbage : List Byte) (command : Command) {text : List Byte}
    (oneLine : newline ∉ text)
    (hasArguments : command = .write ∨ command = .read ∨ command = .delete ∨ command = .wait) :
    EndsAt (parseArguments garbage command (text ++ [newline])) Reported
      (match command with
      | .write => writeEnd text
      | .wait => waitEnd text
      | _ => readDeleteEnd text) := by
  have listed : ∀ {α : Type} (items : List α) (dispatch : Dispatch), dispatch ≠ .invalid →
      (items = [] ↔ Reported (some (some (if items = [] then .invalid else dispatch)))) := by
    intro α items dispatch valid
    split
    · exact iff_of_true ‹_› rfl
    · exact iff_of_false ‹_› fun reported => valid (Option.some.inj (Option.some.inj reported))
  rcases hasArguments with rfl | rfl | rfl | rfl
  · exact endsAt_map (parseWrite_ends oneLine) fun pairs => listed pairs (.write pairs) (by simp)
  · exact endsAt_map (parseReadDelete_ends oneLine) fun keys => listed keys (.read keys) (by simp)
  · exact endsAt_map (parseReadDelete_ends oneLine) fun keys => listed keys (.delete keys) (by simp)
  · refine endsAt_map (parseWait_ends garbage oneLine) fun result => ?_
    by_cases failed : result.code = -1
    · exact iff_of_true failed (by rw [if_pos failed])
    · refine iff_of_false failed fun reported => ?_
      rw [if_neg failed] at reported
      cases reported

/-- An invalid command, cleaned up on its line. -/
theorem invalid_ends (garbage : List Byte) {text : List Byte} (oneLine : newline ∉ text) :
    EndsAt ((cleanupWith .invalid >>= parseArguments garbage) (text ++ [newline])) Reported
      (some .refused) := by
  rw [bind_of_clean (cleanupWith_line oneLine _)]
  exact endsAt_bad rfl

/-- Read the rest of a keyword and go on as it says. -/
theorem keyword_ends (garbage : List Byte) {keyword : List Byte} (visible : newline ∉ keyword)
    {following : List Byte → Option Ending} {parse : Parse Command} {text : List Byte}
    (oneLine : newline ∉ text)
    (ends : ∀ left, newline ∉ left →
      EndsAt ((parse >>= parseArguments garbage) (left ++ [newline])) Reported (following left)) :
    EndsAt (((read keyword.length >>= fun got =>
      if got = keyword then parse else cleanupWith .invalid) >>= parseArguments garbage)
        (text ++ [newline])) Reported (keywordEnd keyword following text) := by
  rw [keywordEnd]
  by_cases short : text.length < keyword.length
  · -- the newline is among the bytes read
    have got : read keyword.length (text ++ [newline]) =
        ⟨text ++ [newline], [], decide (text.length + 1 < keyword.length), false⟩ := by
      have all : (text ++ [newline]).length ≤ keyword.length := by simpa using short
      rw [Scan.read, List.take_of_length_le all, List.drop_of_length_le all, List.length_append]
      rfl
    have different : text ++ [newline] ≠ keyword := fun same => visible (by simp [← same])
    rw [if_pos short]
    refine escapes_bind (· = .invalid) ?_ fun _ invalid => invalid ▸ gives_pure rfl
    rw [bind_apply, got, if_neg different]
    exact Or.inr ⟨Bool.or_true _, rfl⟩
  · rw [if_neg short]
    have got : read keyword.length (text ++ [newline]) =
        ⟨text.take keyword.length, text.drop keyword.length ++ [newline], false, false⟩ := by
      have taken := read_append (text.take keyword.length) (text.drop keyword.length ++ [newline])
      rwa [List.length_take_of_le (not_lt.mp short), ← List.append_assoc,
        List.take_append_drop] at taken
    have restLine : newline ∉ text.drop keyword.length := fun member =>
      oneLine ((List.drop_suffix _ _).subset member)
    rw [bind_of_eq (bind_of_clean got)]
    by_cases same : text.take keyword.length = keyword
    · rw [if_pos same, if_pos same]
      exact ends _ restLine
    · rw [if_neg same, if_neg same]
      exact invalid_ends garbage restLine

theorem keywordWithBlank_ends (garbage : List Byte) {keyword : List Byte}
    (visible : newline ∉ keyword) {command : Command} {following : List Byte → Option Ending}
    {text : List Byte} (oneLine : newline ∉ text)
    (ends : ∀ left, newline ∉ left →
      EndsAt (parseArguments garbage command (left ++ [newline])) Reported (following left)) :
    EndsAt ((keywordWithBlank keyword command >>= parseArguments garbage) (text ++ [newline]))
      Reported (keywordEnd keyword following text) :=
  keyword_ends garbage visible oneLine fun left leftLine => ends left leftLine

theorem keywordAlone_ends (garbage : List Byte) {keyword : List Byte} (visible : newline ∉ keyword)
    {command : Command} {dispatch : Dispatch}
    (alone : parseArguments garbage command = pure (some (some dispatch)))
    (valid : dispatch ≠ .invalid) {text : List Byte} (oneLine : newline ∉ text) :
    EndsAt ((keywordAlone keyword command >>= parseArguments garbage) (text ++ [newline]))
      Reported (keywordEnd keyword nothingEnd text) := by
  refine keyword_ends garbage visible oneLine fun left leftLine => ?_
  cases left with
  | nil =>
    have got : (read 1 >>= fun last => if last = [] ∨ last = [newline] then pure command
        else cleanupWith Command.invalid : Parse Command) ([] ++ [newline]) =
        ⟨command, [], false, false⟩ := rfl
    rw [bind_of_clean got, alone]
    exact endsAt_good Reported (by simpa [Reported] using valid) .taken (by decide)
  | cons ch left =>
    have restLine : newline ∉ left := fun member => leftLine (List.mem_cons_of_mem _ member)
    have notNewline : ch ≠ newline := fun same => leftLine (by simp [same])
    rw [List.cons_append, bind_of_eq (bind_of_clean (read_one_cons ch (left ++ [newline]))),
      if_neg (by simp [notNewline])]
    exact invalid_ends garbage restLine

/-- Unless the word is `WAIT`, reading four bytes and then one is reading the five of `WRITE`. -/
theorem waitOrWrite_eq {file : List Byte} (other : file.take 4 ≠ ascii ['A', 'I', 'T', ' ']) :
    waitOrWrite file = keywordWithBlank (ascii ['R', 'I', 'T', 'E', ' ']) .write file := by
  have joined : file.take 4 ++ (file.drop 4).take 1 = file.take 5 := List.take_add.symm
  have dropped : (file.drop 4).drop 1 = file.drop 5 := List.drop_drop
  have short : (decide (file.length < 4) || decide ((file.drop 4).length < 1)) =
      decide (file.length < 5) := by
    rw [List.length_drop, ← Bool.decide_or, decide_eq_decide]
    omega
  have got : read 4 file = ⟨file.take 4, file.drop 4, decide (file.length < 4), false⟩ := rfl
  have last : read 1 (file.drop 4) = ⟨(file.drop 4).take 1, (file.drop 4).drop 1,
    decide ((file.drop 4).length < 1), false⟩ := rfl
  have five : read 5 file = ⟨file.take 5, file.drop 5, decide (file.length < 5), false⟩ := rfl
  rw [waitOrWrite, keywordWithBlank, bind_apply, got, if_neg other, bind_apply, last, joined,
    dropped]
  show _ = (read 5 >>= _) file
  rw [bind_apply, five, ← short, Bool.or_assoc]
  rfl

/-- A newline behind a line does not make it a `WAIT`. -/
theorem notWait_newline {text : List Byte} (different : text.take 4 ≠ ascii ['A', 'I', 'T', ' ']) :
    (text ++ [newline]).take 4 ≠ ascii ['A', 'I', 'T', ' '] := by
  by_cases long : 4 ≤ text.length
  · rwa [List.take_append_of_le_length long]
  · rw [List.take_of_length_le (by simp; omega)]
    exact fun same =>
      absurd (same ▸ List.mem_append_right text (List.mem_singleton_self newline)) (by decide)

theorem waitOrWrite_ends (garbage : List Byte) {text : List Byte} (oneLine : newline ∉ text) :
    EndsAt ((waitOrWrite >>= parseArguments garbage) (text ++ [newline])) Reported
      (if text.take 4 = ascii ['A', 'I', 'T', ' '] then waitEnd (text.drop 4)
      else keywordEnd (ascii ['R', 'I', 'T', 'E', ' ']) writeEnd text) := by
  split
  · rename_i same
    have whole : text ++ [newline] =
        ascii ['A', 'I', 'T', ' '] ++ (text.drop 4 ++ [newline]) := by
      rw [← same, ← List.append_assoc, List.take_append_drop]
    rw [whole, bind_of_clean (waitOrWrite_wait _)]
    exact parseArguments_ends garbage .wait
      (fun member => oneLine ((List.drop_suffix _ _).subset member)) (by simp)
  · rename_i different
    have other := notWait_newline different
    rw [bind_of_eq (waitOrWrite_eq other)]
    exact keywordWithBlank_ends garbage (by decide) oneLine fun _ leftLine =>
      parseArguments_ends garbage .write leftLine (by simp)

/-- **A command** ends where the text of its line says. -/
theorem nextDispatch_ends (garbage : List Byte) {line : List Byte} (oneLine : newline ∉ line) :
    EndsAt (nextDispatch garbage (line ++ [newline])) Reported (commandEnd line) := by
  cases line with
  | nil =>
    exact endsAt_good Reported (show ¬ Reported (some none) by simp [Reported]) .taken (by decide)
  | cons ch text =>
    have textLine : newline ∉ text := fun member => oneLine (List.mem_cons_of_mem _ member)
    have notNewline : ch ≠ newline := fun same => oneLine (by simp [same])
    have readDelete : ∀ command, command = .read ∨ command = .delete → ∀ left, newline ∉ left →
        EndsAt (parseArguments garbage command (left ++ [newline])) Reported
          (readDeleteEnd left) := by
      rintro command (rfl | rfl) left leftLine
      · exact parseArguments_ends garbage .read leftLine (by simp)
      · exact parseArguments_ends garbage .delete leftLine (by simp)
    rw [List.cons_append, nextDispatch_cons, dispatchAfter, commandAfter, commandEnd]
    split
    · exact waitOrWrite_ends garbage textLine
    split
    · exact keywordWithBlank_ends garbage (by decide) textLine (readDelete _ (Or.inl rfl))
    split
    · exact keywordWithBlank_ends garbage (by decide) textLine (readDelete _ (Or.inr rfl))
    split
    · exact keywordAlone_ends garbage (by decide) rfl (by simp) textLine
    split
    · exact keywordAlone_ends garbage (by decide) rfl (by simp) textLine
    split
    · exact keywordAlone_ends garbage (by decide) rfl (by simp) textLine
    split
    · rw [bind_of_clean (cleanupWith_line textLine _)]
      exact endsAt_good Reported (by simp [Reported]) .taken (by decide)
    · exact invalid_ends garbage textLine

end Kvs.Server
