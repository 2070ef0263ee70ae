/-
**Well-formed job files.**

`JobCommand` is a command as a job file's author means it; its fields keep the bounds the format
has, so that every value has a text the parser accepts. `JobCommand.text` is that text, ended by a
newline, and `JobCommand.dispatch` what it asks `run_job` for.

The file format has no push-back, so each parser function must stop at exactly the right byte. The
lemmas below say so, one for each function: on the text of what it parses, followed by anything, it
gives that thing and leaves what followed. `run_job_dispatches` is then an induction on the
commands.
-/

import Kvs.Job.Numerals
import Kvs.Job.Served

namespace Kvs.Server

open Scanner (Scan Scanned)
open Scanner.Scan

/-! ### Words -/

/-- A byte a key or a value may contain. -/
def isPlain (byte : Byte) : Prop :=
  byte ≠ ' '.toUInt8 ∧ byte ≠ ','.toUInt8 ∧ byte ≠ ')'.toUInt8 ∧ byte ≠ ']'.toUInt8 ∧ byte ≠ newline

instance (byte : Byte) : Decidable (isPlain byte) := by
  unfold isPlain
  infer_instance

/-- A key or a value: at most `39` characters, none of them one the format uses. -/
structure Word where
  str : CStr
  short : str.length < maxStringSize
  plain : ∀ byte ∈ str.bytes, isPlain byte

/-- The code `read_string` gives the delimiter that ended a string. -/
inductive Delimits : Byte → Int → Prop where
  | comma : Delimits ','.toUInt8 0
  | bracket : Delimits ')'.toUInt8 1
  | square : Delimits ']'.toUInt8 2

theorem readStringLoop_word {delimiter : Byte} {code : Int} (ends : Delimits delimiter code)
    (rest : List Byte) {capacity : ℕ} :
    ∀ (word : List Byte) (room : ℕ) (buffer : List Byte), (∀ byte ∈ word, isPlain byte) →
      word.length < room → buffer.length + word.length < capacity →
      readStringLoop capacity room buffer (word ++ delimiter :: rest) =
        ⟨(code, buffer ++ word), rest, false, false⟩ := by
  intro word
  induction word with
  | nil =>
    intro room buffer _ roomy inside
    obtain ⟨room, rfl⟩ : ∃ fewer, room = fewer + 1 := ⟨room - 1, by simp at roomy; omega⟩
    rw [List.nil_append, List.append_nil, readStringLoop, bind_of_clean (read_one_cons _ _)]
    have stored := store_inside (show buffer.length < capacity by simpa using inside) rest
    cases ends with
    | comma => exact bind_of_clean stored
    | bracket => exact bind_of_clean stored
    | square => exact bind_of_clean stored
  | cons byte word ih =>
    intro room buffer plain roomy inside
    obtain ⟨room, rfl⟩ : ∃ fewer, room = fewer + 1 := ⟨room - 1, by simp at roomy; omega⟩
    rw [List.length_cons] at roomy inside
    obtain ⟨notBlank, notComma, notBracket, notSquare, _⟩ := plain byte List.mem_cons_self
    rw [List.cons_append, readStringLoop, bind_of_clean (read_one_cons _ _)]
    simp only [if_neg notBlank, if_neg notComma, if_neg notBracket, if_neg notSquare]
    rw [bind_of_clean (store_inside (by omega) _),
      ih room (buffer ++ [byte]) (fun byte member => plain byte (List.mem_cons_of_mem _ member))
        (by omega) (by rw [List.length_append, List.length_singleton]; omega),
      List.append_assoc, List.singleton_append]

/-- **`read_string` on a word** stops behind its delimiter. -/
theorem readString_word {delimiter : Byte} {code : Int} (ends : Delimits delimiter code)
    (word : Word) (rest : List Byte) :
    readString maxStringSize maxStringSize (word.str.bytes ++ delimiter :: rest) =
      ⟨(code, word.str.bytes), rest, false, false⟩ :=
  readStringLoop_word ends rest word.str.bytes maxStringSize [] word.plain word.short
    (by simpa [CStr.length] using word.short)

/-- A word is copied whole. -/
theorem copyRow_word (word : Word) (file : List Byte) :
    copyRow word.str.bytes file = ⟨word.str, file, false, false⟩ := by
  have whole : CStr.ofBuffer word.str.bytes = word.str := CStr.ofBuffer_noNul word.str.noNul
  rw [copyRow, whole, bind_of_clean (store_inside word.short file)]
  rfl

/-! ### Lists of keys and of pairs -/

/-- Keys separated by commas and closed by a square bracket. -/
def keysText : List Word → List Byte
  | [] => ascii [']']
  | [key] => key.str.bytes ++ ascii [']']
  | key :: keys => key.str.bytes ++ ascii [','] ++ keysText keys

/-- Pairs in brackets, the first bracket left out, closed by a square bracket. -/
def pairsText : List (Word × Word) → List Byte
  | [] => ascii [']']
  | [(key, value)] => key.str.bytes ++ ascii [','] ++ value.str.bytes ++ ascii [')', ']']
  | (key, value) :: pairs =>
    key.str.bytes ++ ascii [','] ++ value.str.bytes ++ ascii [')', '('] ++ pairsText pairs

theorem parseKeysLoop_keys (rest : List Byte) :
    ∀ (keys : List Word) (room : ℕ) (earlier : List CStr), keys ≠ [] → keys.length ≤ room →
      parseKeysLoop maxStringSize room earlier (keysText keys ++ rest) =
        ⟨some (earlier ++ keys.map Word.str), rest, false, false⟩ := by
  intro keys
  induction keys with
  | nil => exact fun room earlier nonempty => absurd rfl nonempty
  | cons key keys ih =>
    intro room earlier _ roomy
    obtain ⟨room, rfl⟩ : ∃ fewer, room = fewer + 1 := ⟨room - 1, by simp at roomy; omega⟩
    cases keys with
    | nil =>
      have text : keysText [key] ++ rest = key.str.bytes ++ ']'.toUInt8 :: rest := by
        rw [keysText, List.append_assoc]
        rfl
      rw [text, parseKeysLoop, bind_of_clean (readString_word .square key rest)]
      show (copyRow key.str.bytes >>= _) rest = _
      rw [bind_of_clean (copyRow_word key rest)]
      rfl
    | cons next keys =>
      have text : keysText (key :: next :: keys) ++ rest =
          key.str.bytes ++ ','.toUInt8 :: (keysText (next :: keys) ++ rest) := by
        rw [keysText, List.append_assoc, List.append_assoc]
        · rfl
        · exact fun nothing => by cases nothing
      rw [text, parseKeysLoop, bind_of_clean (readString_word .comma key _)]
      show (copyRow key.str.bytes >>= _) _ = _
      rw [bind_of_clean (copyRow_word key _)]
      show parseKeysLoop maxStringSize room (earlier ++ [key.str]) _ = _
      rw [ih room (earlier ++ [key.str]) (List.cons_ne_nil _ _) (by simpa using roomy),
        List.append_assoc]
      rfl

/-- **`parse_pair`** stops behind the closing bracket. -/
theorem parsePair_pair (key value : Word) (rest : List Byte) :
    parsePair maxStringSize
        (key.str.bytes ++ ','.toUInt8 :: (value.str.bytes ++ ')'.toUInt8 :: rest)) =
      ⟨some (key.str.bytes, value.str.bytes), rest, false, false⟩ := by
  rw [parsePair, bind_of_clean (readString_word .comma key _)]
  show (readString maxStringSize maxStringSize >>= _) _ = _
  rw [bind_of_clean (readString_word .bracket value rest)]
  rfl

/-- The strings of a pair. -/
def pairStr (pair : Word × Word) : CStr × CStr := (pair.1.str, pair.2.str)

theorem parseWriteLoop_pairs (rest : List Byte) :
    ∀ (pairs : List (Word × Word)) (room : ℕ) (earlier : List (CStr × CStr)), pairs ≠ [] →
      pairs.length ≤ room →
      parseWriteLoop maxStringSize room earlier (pairsText pairs ++ rest) =
        ⟨some (earlier ++ pairs.map pairStr), rest, false, false⟩ := by
  intro pairs
  induction pairs with
  | nil => exact fun room earlier nonempty => absurd rfl nonempty
  | cons pair pairs ih =>
    intro room earlier _ roomy
    obtain ⟨room, rfl⟩ : ∃ fewer, room = fewer + 1 := ⟨room - 1, by simp at roomy; omega⟩
    obtain ⟨key, value⟩ := pair
    -- one round of the loop, up to the byte behind the pair
    have round : ∀ (ch : Byte) (later : List Byte),
        parseWriteLoop maxStringSize (room + 1) earlier (key.str.bytes ++ ','.toUInt8 ::
            (value.str.bytes ++ ')'.toUInt8 :: ch :: later)) =
          (if [ch] = ascii ['('] then
            parseWriteLoop maxStringSize room (earlier ++ [(key.str, value.str)])
          else if [ch] = ascii [']'] then return some (earlier ++ [(key.str, value.str)])
          else cleanupWith none : Parse _) later := by
      intro ch later
      rw [parseWriteLoop, bind_of_clean (parsePair_pair key value _)]
      show (copyRow key.str.bytes >>= _) _ = _
      rw [bind_of_clean (copyRow_word key _), bind_of_clean (copyRow_word value _),
        bind_of_clean (read_one_cons _ _)]
    cases pairs with
    | nil =>
      have text : pairsText [(key, value)] ++ rest = key.str.bytes ++ ','.toUInt8 ::
          (value.str.bytes ++ ')'.toUInt8 :: ']'.toUInt8 :: rest) := by
        rw [pairsText]
        simp only [List.append_assoc]
        rfl
      rw [text, round]
      rfl
    | cons next pairs =>
      have text : pairsText ((key, value) :: next :: pairs) ++ rest = key.str.bytes ++
          ','.toUInt8 :: (value.str.bytes ++ ')'.toUInt8 :: '('.toUInt8 ::
            (pairsText (next :: pairs) ++ rest)) := by
        rw [pairsText]
        · simp only [List.append_assoc]
          rfl
        · exact fun nothing => by cases nothing
      rw [text, round]
      show parseWriteLoop maxStringSize room (earlier ++ [(key.str, value.str)]) _ = _
      rw [ih room (earlier ++ [(key.str, value.str)]) (List.cons_ne_nil _ _) (by simpa using roomy),
        List.append_assoc]
      rfl

/-- The newline behind the closing bracket ends the command. -/
theorem parseEnd_newline {α : Type} {max : ℕ} {items : List α} (fits : items.length < max)
    (rest : List Byte) :
    parseEnd max items (newline :: rest) = ⟨items, rest, false, false⟩ := by
  rw [parseEnd, if_neg fits.ne, bind_of_clean (read_one_cons _ _)]
  rfl

/-- **`parse_read_delete`** on a list of keys. -/
theorem parseReadDelete_keys {keys : List Word} (nonempty : keys ≠ [])
    (fits : keys.length < maxWriteSize) (rest : List Byte) :
    parseReadDelete maxWriteSize maxStringSize
        ('['.toUInt8 :: (keysText keys ++ newline :: rest)) =
      ⟨keys.map Word.str, rest, false, false⟩ := by
  rw [parseReadDelete, bind_of_clean (read_one_cons _ _)]
  show (parseKeysLoop maxStringSize maxWriteSize [] >>= _) _ = _
  rw [bind_of_clean (parseKeysLoop_keys (newline :: rest) keys maxWriteSize [] nonempty fits.le)]
  exact parseEnd_newline (by simpa using fits) rest

/-- **`parse_write`** on a list of pairs. -/
theorem parseWrite_pairs {pairs : List (Word × Word)} (nonempty : pairs ≠ [])
    (fits : pairs.length < maxWriteSize) (rest : List Byte) :
    parseWrite maxWriteSize maxStringSize
        ('['.toUInt8 :: '('.toUInt8 :: (pairsText pairs ++ newline :: rest)) =
      ⟨pairs.map pairStr, rest, false, false⟩ := by
  rw [parseWrite, bind_of_clean (read_one_cons _ _)]
  show (read 1 >>= _) _ = _
  rw [bind_of_clean (read_one_cons _ _)]
  show (parseWriteLoop maxStringSize maxWriteSize [] >>= _) _ = _
  rw [bind_of_clean (parseWriteLoop_pairs (newline :: rest) pairs maxWriteSize [] nonempty fits.le)]
  exact parseEnd_newline (by simpa using fits) rest

/-! ### Commands -/

/-- A well-formed line of a job file. -/
inductive JobCommand where
  | write (pairs : List (Word × Word)) (nonempty : pairs ≠ []) (fits : pairs.length < maxWriteSize)
  | read (keys : List Word) (nonempty : keys ≠ []) (fits : keys.length < maxWriteSize)
  | delete (keys : List Word) (nonempty : keys ≠ []) (fits : keys.length < maxWriteSize)
  | show
  | wait (delay : ℕ) (fits : delay ≤ uintMax)
  | backup
  | help
  | comment (text : List Byte) (oneLine : newline ∉ text)
  | emptyLine

namespace JobCommand

/-- The text of a command, without the newline that ends it. -/
def line : JobCommand → List Byte
  | .write pairs _ _ => ascii ['W', 'R', 'I', 'T', 'E', ' ', '[', '('] ++ pairsText pairs
  | .read keys _ _ => ascii ['R', 'E', 'A', 'D', ' ', '['] ++ keysText keys
  | .delete keys _ _ => ascii ['D', 'E', 'L', 'E', 'T', 'E', ' ', '['] ++ keysText keys
  | .show => ascii ['S', 'H', 'O', 'W']
  | .wait delay _ => ascii ['W', 'A', 'I', 'T', ' '] ++ decimal delay
  | .backup => ascii ['B', 'A', 'C', 'K', 'U', 'P']
  | .help => ascii ['H', 'E', 'L', 'P']
  | .comment text _ => ascii ['#'] ++ text
  | .emptyLine => []

/-- The text of a command. -/
def text (command : JobCommand) : List Byte := command.line ++ [newline]

/-- What a command asks for; comments and empty lines ask for nothing. -/
def dispatch : JobCommand → Option Dispatch
  | .write pairs _ _ => some (.write (pairs.map pairStr))
  | .read keys _ _ => some (.read (keys.map Word.str))
  | .delete keys _ _ => some (.delete (keys.map Word.str))
  | .show => some .show
  | .wait delay _ => some (.wait delay)
  | .backup => some .backup
  | .help => some .help
  | .comment _ _ => none
  | .emptyLine => none

end JobCommand

/-- A keyword followed by a blank. -/
theorem keywordWithBlank_keyword (keyword : List Byte) (command : Command) (rest : List Byte) :
    keywordWithBlank keyword command (keyword ++ rest) = ⟨command, rest, false, false⟩ := by
  rw [keywordWithBlank, bind_of_clean (read_append keyword rest), if_pos rfl]
  rfl

/-- A keyword alone on its line. -/
theorem keywordAlone_keyword (keyword : List Byte) (command : Command) (rest : List Byte) :
    keywordAlone keyword command (keyword ++ newline :: rest) = ⟨command, rest, false, false⟩ := by
  rw [keywordAlone, bind_of_clean (read_append keyword (newline :: rest)), if_pos rfl,
    bind_of_clean (read_one_cons _ _), if_pos (Or.inr rfl)]
  rfl

/-- `WRITE` is decided after a sixth. -/
theorem waitOrWrite_write (rest : List Byte) :
    waitOrWrite (ascii ['R', 'I', 'T', 'E', ' '] ++ rest) = ⟨.write, rest, false, false⟩ := by
  have got : read 4 (ascii ['R', 'I', 'T', 'E', ' '] ++ rest) =
      ⟨ascii ['R', 'I', 'T', 'E'], ' '.toUInt8 :: rest, false, false⟩ :=
    read_append (ascii ['R', 'I', 'T', 'E']) (' '.toUInt8 :: rest)
  rw [waitOrWrite, bind_of_clean got, if_neg (by decide), bind_of_clean (read_one_cons _ _),
    if_pos (by decide)]
  rfl

/-- **`parse_wait` on a numeral** stops behind the newline. -/
theorem parseWait_decimal (garbage : List Byte) (hasThread : Bool) {delay : ℕ}
    (fits : delay ≤ uintMax) (rest : List Byte) :
    parseWait garbage hasThread (decimal delay ++ newline :: rest) =
      ⟨⟨0, some delay, none⟩, rest, false, false⟩ := by
  rw [parseWait, bind_of_clean (readUint_decimal garbage fits (by decide) rest)]
  rfl

/-- **One command**: its dispatch, and the parser stands behind its newline. -/
theorem nextDispatch_text (garbage : List Byte) (command : JobCommand) (rest : List Byte) :
    nextDispatch garbage (command.text ++ rest) = ⟨some command.dispatch, rest, false, false⟩ := by
  rw [JobCommand.text, List.append_assoc, List.singleton_append]
  cases command with
  | write pairs nonempty fits =>
    show dispatchAfter garbage 'W'.toUInt8 (ascii ['R', 'I', 'T', 'E', ' '] ++
      '['.toUInt8 :: '('.toUInt8 :: (pairsText pairs ++ newline :: rest)) = _
    rw [dispatchAfter, commandAfter, if_pos rfl, bind_of_clean (waitOrWrite_write _),
      parseArguments, bind_of_clean (parseWrite_pairs nonempty fits rest),
      if_neg (by simpa using nonempty)]
    rfl
  | read keys nonempty fits =>
    show dispatchAfter garbage 'R'.toUInt8 (ascii ['E', 'A', 'D', ' '] ++
      '['.toUInt8 :: (keysText keys ++ newline :: rest)) = _
    rw [dispatchAfter, commandAfter, if_neg (by decide), if_pos rfl,
      bind_of_clean (keywordWithBlank_keyword _ _ _), parseArguments,
      bind_of_clean (parseReadDelete_keys nonempty fits rest), if_neg (by simpa using nonempty)]
    rfl
  | delete keys nonempty fits =>
    show dispatchAfter garbage 'D'.toUInt8 (ascii ['E', 'L', 'E', 'T', 'E', ' '] ++
      '['.toUInt8 :: (keysText keys ++ newline :: rest)) = _
    rw [dispatchAfter, commandAfter, if_neg (by decide), if_neg (by decide), if_pos rfl,
      bind_of_clean (keywordWithBlank_keyword _ _ _), parseArguments,
      bind_of_clean (parseReadDelete_keys nonempty fits rest), if_neg (by simpa using nonempty)]
    rfl
  | «show» =>
    show dispatchAfter garbage 'S'.toUInt8 (ascii ['H', 'O', 'W'] ++ newline :: rest) = _
    exact bind_of_clean (keywordAlone_keyword _ _ _)
  | wait delay fits =>
    show dispatchAfter garbage 'W'.toUInt8 (ascii ['A', 'I', 'T', ' '] ++
      (decimal delay ++ newline :: rest)) = _
    rw [dispatchAfter, commandAfter, if_pos rfl, bind_of_clean (waitOrWrite_wait _), parseArguments,
      bind_of_clean (parseWait_decimal garbage false fits rest)]
    rfl
  | backup =>
    show dispatchAfter garbage 'B'.toUInt8 (ascii ['A', 'C', 'K', 'U', 'P'] ++ newline :: rest) = _
    exact bind_of_clean (keywordAlone_keyword _ _ _)
  | help =>
    show dispatchAfter garbage 'H'.toUInt8 (ascii ['E', 'L', 'P'] ++ newline :: rest) = _
    exact bind_of_clean (keywordAlone_keyword _ _ _)
  | comment text oneLine =>
    show dispatchAfter garbage '#'.toUInt8 (text ++ newline :: rest) = _
    have cleaned : cleanupWith Command.empty (text ++ newline :: rest) =
        ⟨.empty, rest, false, false⟩ := bind_of_clean (cleanup_line text rest oneLine)
    exact bind_of_clean cleaned
  | emptyLine => rfl

/-! ### Whole files -/

/-- The text of a list of commands. -/
def jobText (commands : List JobCommand) : List Byte := commands.flatMap JobCommand.text

/-- **A well-formed job file is dispatched as written**, one iteration a command, and then `EOC`. -/
theorem dispatchLoop_jobText (garbage : List Byte) (commands : List JobCommand) :
    dispatchLoop garbage (commands.length + 1) (jobText commands) =
      some ⟨commands.filterMap JobCommand.dispatch, false, false⟩ := by
  induction commands with
  | nil => rfl
  | cons command commands ih =>
    have step : jobStep garbage (jobText (command :: commands)) =
        some (⟨command.dispatch.toList, false, false⟩, jobText commands) := by
      rw [jobStep, jobText, List.flatMap_cons, nextDispatch_text]
      rfl
    rw [List.length_cons, dispatchLoop, step]
    show (dispatchLoop garbage (commands.length + 1) (jobText commands)).map _ = _
    rw [ih, Option.map_some]
    cases dispatched : command.dispatch with
    | none => rw [List.filterMap_cons_none dispatched]; rfl
    | some dispatch => rw [List.filterMap_cons_some dispatched]; rfl

/-- `run_job` dispatches exactly the commands of the file, in order, and stops at `EOC`. -/
def DispatchesAll (around : Surroundings) (garbage : List Byte) (commands : List JobCommand)
    (job : JobState) : Prop :=
  ∃ final, runJobNoted around garbage (commands.length + 1) (jobText commands) job =
    some (commands.filterMap JobCommand.dispatch, .ok final)

/-- **`run_job` on a well-formed file** dispatches its commands and comes to `EOC` exactly when
every key they name starts with a letter or digit. -/
theorem run_job_dispatches (around : Surroundings) (garbage : List Byte)
    (commands : List JobCommand) (job : JobState) :
    DispatchesAll around garbage commands job ↔
      ∀ dispatch ∈ commands.filterMap JobCommand.dispatch, ∀ key ∈ dispatch.keys,
        startsAlnum key :=
  runJobNoted_whole_iff (dispatchLoop_jobText garbage commands) rfl around job

/-- `READ [!]` and `SHOW`: the listing is never reached. -/
theorem bangKey_not_dispatched :
    ¬ ∀ around garbage commands job, DispatchesAll around garbage commands job := by
  intro all
  let bang : Word :=
    ⟨⟨ascii ['!'], by decide⟩, by decide, List.forall_mem_singleton.mpr (by decide)⟩
  have whole := all ⟨fun _ shared => shared, fun _ => true⟩ []
    [.read [bang] (List.cons_ne_nil _ _) (by decide), .show] ⟨kvsInit, 0, [], 0, []⟩
  have placed := (runJobNoted_whole_iff (dispatchLoop_jobText [] _) rfl _ _).mp whole
    (.read [bang.str]) (by simp [JobCommand.dispatch]) bang.str (List.mem_singleton_self _)
  exact absurd placed (by decide)

end Kvs.Server
