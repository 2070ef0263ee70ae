/-
**The grammar of the list parsers.**

A string of a job file has at most `39` bytes, none of them a blank, a comma or a closing bracket;
`keysForm` and `pairsForm` are the texts of a list of strings and of a list of pairs.
`AcceptsExactly` says of a list parser that on an input it returns what the grammar says, stores
those items and consumes that text.

Each parser function has one lemma, which gives the language it reads: both directions at once, with
what it refuses. `parse_write` and `parse_read_delete` end their loops by the bracket or by the
count, and refuse a full array without looking which it was. `serverLists_exact_iff` says what
follows: they accept exactly their grammar, but for lists of `max` items.
-/

import Kvs.Job.Commands
import Kvs.Lib.Grammar
import Kvs.Store.Backup

namespace Kvs.Server

open Scanner (Scan Scanned)
open Scanner.Scan

/-! ### Texts -/

/-- A string of a job file. -/
structure IsItem (str : CStr) : Prop where
  short : str.length < maxStringSize
  undelimited : Undelimited str.bytes

/-- Both strings of a pair. -/
def IsItemPair (pair : CStr × CStr) : Prop := IsItem pair.1 ∧ IsItem pair.2

/-- `'['`, the strings separated by `','`, `']'` and the newline. -/
def keysForm (keys : List CStr) : List Byte :=
  ascii ['['] ++ (ascii [',']).intercalate (keys.map CStr.bytes) ++ ascii [']'] ++ [newline]

/-- `'('`, a string, `','`, a string, `')'`. -/
def pairForm (pair : CStr × CStr) : List Byte :=
  ascii ['('] ++ pair.1.bytes ++ ascii [','] ++ pair.2.bytes ++ ascii [')']

/-- `'['`, the pairs, `']'` and the newline. -/
def pairsForm (pairs : List (CStr × CStr)) : List Byte :=
  ascii ['['] ++ pairs.flatMap pairForm ++ ascii [']'] ++ [newline]

/-- The parser accepts exactly the texts of at most `max` items: it returns `n > 0` if and only if
the input starts with one of `n` items, and then stores those items and consumes that text. -/
structure AcceptsExactly {α : Type} (parse : Parse (List α)) (good : α → Prop)
    (form : List α → List Byte) (max : ℕ) (input : CStr) : Prop where
  returns : ∀ n, 0 < n → ((parse input.bytes).val.length = n ↔
    n ≤ max ∧ ∃ items rest, items.length = n ∧ (∀ item ∈ items, good item) ∧
      input.bytes = form items ++ rest)
  stores : ∀ items rest, items ≠ [] → items.length ≤ max → (∀ item ∈ items, good item) →
    input.bytes = form items ++ rest →
    (parse input.bytes).val = items ∧ (parse input.bytes).rest = rest

/-- The input starts with the text of exactly `max` items. -/
def FillsArray {α : Type} (good : α → Prop) (form : List α → List Byte) (max : ℕ) (input : CStr) :
    Prop :=
  ∃ items rest, items ≠ [] ∧ items.length = max ∧ (∀ item ∈ items, good item) ∧
    input.bytes = form items ++ rest

theorem acceptsExactly_of_iff {α : Type} {parse : Parse (List α)} {good : α → Prop}
    {form : List α → List Byte} {max : ℕ} {input : CStr}
    (exact : ∀ items rest, items ≠ [] →
      ((parse input.bytes).val = items ∧ (parse input.bytes).rest = rest ↔
        items.length ≤ max ∧ (∀ item ∈ items, good item) ∧ input.bytes = form items ++ rest)) :
    AcceptsExactly parse good form max input := by
  refine ⟨fun n positive => ?_, fun items rest nonempty fits isGood split =>
    (exact items rest nonempty).mpr ⟨fits, isGood, split⟩⟩
  constructor
  · rintro rfl
    obtain ⟨fits, isGood, split⟩ :=
      (exact _ (parse input.bytes).rest (List.ne_nil_of_length_pos positive)).mp ⟨rfl, rfl⟩
    exact ⟨fits, _, _, rfl, isGood, split⟩
  · rintro ⟨fits, items, rest, rfl, isGood, split⟩
    have nonempty : items ≠ [] := List.ne_nil_of_length_pos positive
    rw [((exact items rest nonempty).mpr ⟨fits, isGood, split⟩).1]

/-! ### Strings -/

/-- The bytes of an input without NUL. -/
def NonNul (byte : Byte) : Prop := byte ≠ nul

/-- A string and the delimiter that ends it. -/
def StringText (room : ℕ) (buffer : List Byte) (outcome : Int × List Byte) (text : List Byte) :
    Prop :=
  ∃ str delimiter, Undelimited str ∧ str.length < room ∧ Delimits delimiter outcome.1 ∧
    outcome.2 = buffer ++ str ∧ text = str ++ [delimiter]

theorem Delimits.mem {delimiter : Byte} {code : Int} (ends : Delimits delimiter code) :
    delimiter ∈ delimiters := by
  cases ends <;> decide

theorem Delimits.nonneg {delimiter : Byte} {code : Int} (ends : Delimits delimiter code) :
    0 ≤ code := by
  cases ends <;> decide

theorem undelimited_cons {byte : Byte} {str : List Byte} :
    Undelimited (byte :: str) ↔ byte ∉ delimiters ∧ Undelimited str :=
  List.forall_mem_cons

/-- A delimiter ends the string; any other byte joins it. -/
theorem stringText_cons {room : ℕ} {buffer : List Byte} {outcome : Int × List Byte} {byte : Byte}
    {text : List Byte} :
    StringText (room + 1) buffer outcome (byte :: text) ↔
      (Delimits byte outcome.1 ∧ outcome.2 = buffer ∧ text = []) ∨
        (byte ∉ delimiters ∧ StringText room (buffer ++ [byte]) outcome text) := by
  constructor
  · rintro ⟨str, delimiter, plain, short, ends, stored, split⟩
    cases str with
    | nil =>
      obtain ⟨rfl, rfl⟩ := List.cons.inj split
      exact .inl ⟨ends, by rw [stored, List.append_nil], rfl⟩
    | cons first str =>
      obtain ⟨rfl, rfl⟩ := List.cons.inj split
      obtain ⟨other, plain⟩ := undelimited_cons.mp plain
      refine .inr ⟨other, str, delimiter, plain, by simpa using short, ends, ?_, rfl⟩
      rw [stored, List.append_assoc, List.singleton_append]
  · rintro (⟨ends, stored, rfl⟩ | ⟨other, str, delimiter, plain, short, ends, stored, rfl⟩)
    · exact ⟨[], byte, fun _ member => absurd member List.not_mem_nil, Nat.succ_pos room, ends,
        by rw [stored, List.append_nil], rfl⟩
    · refine ⟨byte :: str, delimiter, undelimited_cons.mpr ⟨other, plain⟩, by simpa using short,
        ends, ?_, rfl⟩
      rw [stored, List.append_assoc, List.singleton_append]

theorem refuses_unended (buffer : List Byte) :
    Gives (pure (-1, buffer) : Parse (Int × List Byte)) fun outcome => ¬ 0 ≤ outcome.1 :=
  gives_pure (show ¬ (0 : Int) ≤ -1 by decide)

/-- Behind a blank no string ends. -/
theorem reads_blank (clean : Byte → Prop) (room : ℕ) (buffer : List Byte) :
    Reads clean (pure (-1, buffer) : Parse (Int × List Byte)) (fun outcome => 0 ≤ outcome.1)
      fun outcome text => StringText (room + 1) buffer outcome (' '.toUInt8 :: text) := by
  refine Reads.congr (reads_refuse (refuses_unended buffer)) fun outcome text _ _ => ?_
  obtain ⟨code, str⟩ := outcome
  rw [stringText_cons]
  constructor
  · exact False.elim
  · rintro (⟨ends, _⟩ | ⟨other, _⟩)
    · cases ends
    · exact other (by decide)

/-- A delimiter ends the string with its code. -/
theorem reads_ended (clean : Byte → Prop) (capacity room : ℕ) (buffer : List Byte) {token : Byte}
    {code : Int} (ends : Delimits token code) :
    Reads clean (do store buffer.length capacity; return (code, buffer) : Parse (Int × List Byte))
      (fun outcome => 0 ≤ outcome.1)
      fun outcome text => StringText (room + 1) buffer outcome (token :: text) := by
  refine (reads_skip (passes_store _ _) (reads_pure (code, buffer))).congr ?_
  rintro ⟨code', str⟩ text _ _
  rw [stringText_cons]
  constructor
  · rintro ⟨same, rfl⟩
    cases same
    exact .inl ⟨ends, rfl, rfl⟩
  · rintro (⟨ends', stored, rfl⟩ | ⟨other, _⟩)
    · refine ⟨Prod.ext ?_ stored, rfl⟩
      cases ends <;> cases ends' <;> rfl
    · exact absurd ends.mem other

/-- **`read_string`** reads a string and its delimiter, on any bytes. -/
theorem reads_readStringLoop (clean : Byte → Prop) (capacity room : ℕ) (buffer : List Byte) :
    Reads clean (readStringLoop capacity room buffer) (fun outcome => 0 ≤ outcome.1)
      (StringText room buffer) := by
  induction room generalizing buffer with
  | zero =>
    refine Reads.congr (reads_refuse (gives_bind_any fun _ => refuses_unended buffer)) ?_
    intro outcome text _ _
    constructor
    · exact False.elim
    · rintro ⟨str, _, _, short, _⟩
      exact absurd short (Nat.not_lt_zero _)
  | succ room ih =>
    have round : ∀ token, clean token → Reads clean
        (if token = ' '.toUInt8 then return (-1, buffer)
          else if token = ','.toUInt8 then do store buffer.length capacity; return (0, buffer)
          else if token = ')'.toUInt8 then do store buffer.length capacity; return (1, buffer)
          else if token = ']'.toUInt8 then do store buffer.length capacity; return (2, buffer)
          else do
            store buffer.length capacity
            readStringLoop capacity room (buffer ++ [token]) : Parse (Int × List Byte))
        (fun outcome => 0 ≤ outcome.1)
        fun outcome text => StringText (room + 1) buffer outcome (token :: text) := by
      intro token _
      by_cases blank : token = ' '.toUInt8
      · rw [if_pos blank, blank]
        exact reads_blank clean room buffer
      rw [if_neg blank]
      by_cases comma : token = ','.toUInt8
      · rw [if_pos comma]
        exact reads_ended clean capacity room buffer (comma ▸ .comma)
      rw [if_neg comma]
      by_cases bracket : token = ')'.toUInt8
      · rw [if_pos bracket]
        exact reads_ended clean capacity room buffer (bracket ▸ .bracket)
      rw [if_neg bracket]
      by_cases square : token = ']'.toUInt8
      · rw [if_pos square]
        exact reads_ended clean capacity room buffer (square ▸ .square)
      rw [if_neg square]
      have plain : token ∉ delimiters := by simp [delimiters, blank, comma, bracket, square]
      refine (reads_skip (passes_store _ _) (ih (buffer ++ [token]))).congr
        fun outcome text _ _ => ?_
      rw [stringText_cons]
      constructor
      · exact fun later => .inr ⟨plain, later⟩
      · rintro (⟨ends, _⟩ | ⟨_, later⟩)
        · exact absurd ends.mem plain
        · exact later
    rw [readStringLoop]
    refine Reads.congr (reads_token round (refuses_unended buffer))
      fun outcome text _ textClean => ?_
    constructor
    · rintro ⟨token, tail, _, later, rfl⟩
      exact later
    · intro string
      cases text with
      | nil =>
        obtain ⟨str, delimiter, _, _, _, _, split⟩ := string
        exact absurd split.symm (List.append_ne_nil_of_right_ne_nil _ (List.cons_ne_nil _ _))
      | cons token tail => exact ⟨token, tail, textClean token List.mem_cons_self, string, rfl⟩

/-- A string of the grammar and its delimiter, as `read_string` gives them. -/
def ItemText (outcome : Int × List Byte) (text : List Byte) : Prop :=
  ∃ (str : CStr) (delimiter : Byte), IsItem str ∧ Delimits delimiter outcome.1 ∧
    outcome.2 = str.bytes ∧ text = str.bytes ++ [delimiter]

theorem reads_readString :
    Reads NonNul (readString maxStringSize maxStringSize) (fun outcome => 0 ≤ outcome.1)
      ItemText := by
  refine Reads.congr (reads_readStringLoop NonNul maxStringSize maxStringSize []) ?_
  intro outcome text _ clean
  constructor
  · rintro ⟨str, delimiter, plain, short, ends, stored, rfl⟩
    have noNul : nul ∉ str := fun member => clean nul (List.mem_append_left _ member) rfl
    exact ⟨⟨str, noNul⟩, delimiter, ⟨short, plain⟩, ends, stored, rfl⟩
  · rintro ⟨str, delimiter, item, ends, stored, rfl⟩
    exact ⟨str.bytes, delimiter, item.undelimited, item.short, ends, stored, rfl⟩

theorem passes_copyRow (str : CStr) : Passes (copyRow str.bytes) str := by
  intro file
  have whole : CStr.ofBuffer str.bytes = str := CStr.ofBuffer_noNul str.noNul
  rw [copyRow, whole]
  exact ⟨rfl, rfl⟩

/-! ### Lists of keys -/

/-- **One round of a list loop** reads a string: a square bracket closes the list, a comma goes on
with it. -/
theorem reads_listRound {β : Type} {accepts : β → Prop} {refused : β} (refuses : ¬ accepts refused)
    (closed more : Int → CStr → Parse β) {langClosed langMore : CStr → β → List Byte → Prop}
    (one : ∀ key, Reads NonNul (closed 2 key) accepts (langClosed key))
    (two : ∀ key, Reads NonNul (more 0 key) accepts (langMore key)) :
    Reads NonNul (do
        let (output, key) ← readString maxStringSize maxStringSize
        if output < 0 ∨ output = 1 then cleanupWith refused
        else do
          let key ← copyRow key
          if output = 2 then closed output key else more output key : Parse β)
      accepts fun got text => ∃ (key : CStr) (tail : List Byte), IsItem key ∧
        ((langClosed key got tail ∧ text = key.bytes ++ ']'.toUInt8 :: tail) ∨
          (langMore key got tail ∧ text = key.bytes ++ ','.toUInt8 :: tail)) := by
  have string : Reads NonNul (readString maxStringSize maxStringSize)
      (fun outcome => 0 ≤ outcome.1 ∧ outcome.1 ≠ 1) ItemText :=
    reads_readString.weaken fun _ good => good.1
  -- what follows the string, by the delimiter that ended it
  have following : ∀ (outcome : Int × List Byte) (head : List Byte),
      (0 ≤ outcome.1 ∧ outcome.1 ≠ 1) → ItemText outcome head → (∀ token ∈ head, NonNul token) →
      Reads NonNul (if outcome.1 < 0 ∨ outcome.1 = 1 then cleanupWith refused
        else do
          let key ← copyRow outcome.2
          if outcome.1 = 2 then closed outcome.1 key else more outcome.1 key : Parse β)
        accepts fun got tail => ∃ key : CStr, outcome.2 = key.bytes ∧
          ((outcome.1 = 2 ∧ langClosed key got tail) ∨
            (outcome.1 = 0 ∧ langMore key got tail)) := by
    rintro ⟨code, _⟩ _ ⟨_, notBracket⟩ ⟨key, delimiter, item, ends, rfl, rfl⟩ _
    cases ends with
    | comma =>
      refine Reads.congr (reads_skip (passes_copyRow key) (two key)) fun got tail _ _ => ?_
      constructor
      · exact fun later => ⟨key, rfl, .inr ⟨rfl, later⟩⟩
      · rintro ⟨key', same, ⟨end', _⟩ | ⟨_, later⟩⟩
        · cases end'
        · rwa [CStr.ext same]
    | bracket => exact absurd rfl notBracket
    | square =>
      refine Reads.congr (reads_skip (passes_copyRow key) (one key)) fun got tail _ _ => ?_
      constructor
      · exact fun later => ⟨key, rfl, .inl ⟨rfl, later⟩⟩
      · rintro ⟨key', same, ⟨_, later⟩ | ⟨end', _⟩⟩
        · rwa [CStr.ext same]
        · cases end'
  have failed : ∀ outcome : Int × List Byte, ¬ (0 ≤ outcome.1 ∧ outcome.1 ≠ 1) →
      Gives (if outcome.1 < 0 ∨ outcome.1 = 1 then cleanupWith refused
        else do
          let key ← copyRow outcome.2
          if outcome.1 = 2 then closed outcome.1 key else more outcome.1 key : Parse β)
        fun got => ¬ accepts got := by
    intro outcome other
    rw [if_pos (by omega)]
    exact gives_cleanupWith refuses
  refine Reads.congr (reads_bind string following failed) fun got text _ _ => ?_
  constructor
  · rintro ⟨⟨code, _⟩, _, tail, ⟨_, notBracket⟩, ⟨key, delimiter, item, ends, rfl, rfl⟩,
      ⟨key', same, later⟩, rfl⟩
    obtain rfl := CStr.ext same
    refine ⟨key, tail, item, ?_⟩
    cases ends with
    | comma => exact .inr ⟨(later.resolve_left fun end' => by cases end'.1).2, by simp⟩
    | bracket => exact absurd rfl notBracket
    | square => exact .inl ⟨(later.resolve_right fun end' => by cases end'.1).2, by simp⟩
  · rintro ⟨key, tail, item, ⟨later, rfl⟩ | ⟨later, rfl⟩⟩
    · exact ⟨(2, key.bytes), key.bytes ++ [']'.toUInt8], tail, by simp,
        ⟨key, _, item, .square, rfl, rfl⟩, ⟨key, rfl, .inl ⟨rfl, later⟩⟩, by simp⟩
    · exact ⟨(0, key.bytes), key.bytes ++ [','.toUInt8], tail, by simp,
        ⟨key, _, item, .comma, rfl, rfl⟩, ⟨key, rfl, .inr ⟨rfl, later⟩⟩, by simp⟩

/-- The strings separated by commas, and the closing bracket. -/
def keysTail (keys : List CStr) : List Byte :=
  (ascii [',']).intercalate (keys.map CStr.bytes) ++ ascii [']']

/-- The keys a loop may still store. -/
structure KeysLeft (room : ℕ) (keys : List CStr) (text : List Byte) : Prop where
  nonempty : keys ≠ []
  fits : keys.length ≤ room
  items : ∀ key ∈ keys, IsItem key
  text : text = keysTail keys

theorem not_keysLeft_zero {keys : List CStr} {text : List Byte} : ¬ KeysLeft 0 keys text :=
  fun left => left.nonempty (List.length_eq_zero_iff.mp (Nat.le_zero.mp left.fits))

/-- One key and the closing bracket, or one key, a comma and more keys. -/
theorem keysLeft_succ {room : ℕ} {keys : List CStr} {text : List Byte} :
    KeysLeft (room + 1) keys text ↔ ∃ key, IsItem key ∧
      ((keys = [key] ∧ text = key.bytes ++ [']'.toUInt8]) ∨
        ∃ keys' tail, KeysLeft room keys' tail ∧ keys = key :: keys' ∧
          text = key.bytes ++ ','.toUInt8 :: tail) := by
  constructor
  · rintro ⟨nonempty, fits, items, rfl⟩
    obtain ⟨key, keys, rfl⟩ := List.exists_cons_of_ne_nil nonempty
    obtain ⟨item, items⟩ := List.forall_mem_cons.mp items
    cases keys with
    | nil => exact ⟨key, item, .inl ⟨rfl, by simp [keysTail]⟩⟩
    | cons next keys =>
      exact ⟨key, item, .inr ⟨next :: keys, _, ⟨List.cons_ne_nil _ _, by simpa using fits, items,
        rfl⟩, rfl, by simp [keysTail, List.intercalate_cons_cons]⟩⟩
  · rintro ⟨key, item, ⟨rfl, rfl⟩ | ⟨keys, _, ⟨nonempty, fits, items, rfl⟩, rfl, rfl⟩⟩
    · exact ⟨List.cons_ne_nil _ _, by simp, by simpa using item, by simp [keysTail]⟩
    · obtain ⟨next, keys, rfl⟩ := List.exists_cons_of_ne_nil nonempty
      exact ⟨List.cons_ne_nil _ _, by simpa using fits, List.forall_mem_cons.mpr ⟨item, items⟩,
        by simp [keysTail, List.intercalate_cons_cons]⟩

/-- The loop stored items, and did not fill the array. -/
def NotFull {α : Type} (max : ℕ) (got : Option (List α)) : Prop :=
  ∃ items, got = some items ∧ items.length ≠ max

theorem not_notFull_none {α : Type} {max : ℕ} : ¬ NotFull max (none : Option (List α)) := by
  rintro ⟨items, same, _⟩
  cases same

/-- An item stored takes one place of the room left. -/
theorem length_stored {α : Type} (earlier : List α) (item : α) (room : ℕ) :
    earlier.length + (room + 1) = (earlier ++ [item]).length + room := by
  rw [List.length_append, List.length_singleton]
  omega

/-- The loop of `parse_read_delete`. -/
theorem reads_parseKeysLoop (room : ℕ) (earlier : List CStr) :
    Reads NonNul (parseKeysLoop maxStringSize room earlier) (NotFull (earlier.length + room))
      fun got text => ∃ keys, got = some (earlier ++ keys) ∧ KeysLeft room keys text := by
  induction room generalizing earlier with
  | zero =>
    refine Reads.congr (reads_refuse (gives_pure ?_)) fun got text _ _ => ?_
    · rintro ⟨items, same, different⟩
      cases same
      exact different rfl
    · constructor
      · exact False.elim
      · rintro ⟨keys, _, left⟩
        exact not_keysLeft_zero left
  | succ room ih =>
    have more : ∀ key, Reads NonNul (parseKeysLoop maxStringSize room (earlier ++ [key]))
        (NotFull (earlier.length + (room + 1))) _ := fun key =>
      length_stored earlier key room ▸ ih (earlier ++ [key])
    rw [parseKeysLoop]
    refine Reads.congr (reads_listRound not_notFull_none
      (fun _ key => return some (earlier ++ [key]))
      (fun _ key => parseKeysLoop maxStringSize room (earlier ++ [key]))
      (fun key => reads_pure (some (earlier ++ [key]))) more) fun got text _ _ => ?_
    constructor
    · rintro ⟨key, tail, item, ⟨⟨rfl, rfl⟩, rfl⟩ | ⟨⟨keys, rfl, left⟩, rfl⟩⟩
      · exact ⟨[key], rfl, keysLeft_succ.mpr ⟨key, item, .inl ⟨rfl, rfl⟩⟩⟩
      · exact ⟨key :: keys, by simp, keysLeft_succ.mpr ⟨key, item, .inr ⟨_, _, left, rfl, rfl⟩⟩⟩
    · rintro ⟨keys, rfl, left⟩
      obtain ⟨key, item, ⟨rfl, rfl⟩ | ⟨keys, tail, fewer, rfl, rfl⟩⟩ := keysLeft_succ.mp left
      · exact ⟨key, [], item, .inl ⟨⟨rfl, rfl⟩, rfl⟩⟩
      · exact ⟨key, tail, item, .inr ⟨⟨keys, by simp, fewer⟩, rfl⟩⟩

/-! ### Lists of pairs -/

/-- The text of a pair without its opening bracket. -/
def pairTail (pair : CStr × CStr) : List Byte :=
  pair.1.bytes ++ ascii [','] ++ pair.2.bytes ++ ascii [')']

/-- The bytes of a string, NUL among them or not. -/
structure IsWord (str : List Byte) : Prop where
  short : str.length < maxStringSize
  undelimited : Undelimited str

/-- A string that must end at this delimiter, on any bytes. -/
theorem reads_delimited {clean : Byte → Prop} {β : Type} {delimiter : Byte} {code : Int}
    (ends : Delimits delimiter code) (accepts : β → Prop) {refused : β}
    (refuses : ¬ accepts refused) (following : List Byte → Parse β)
    {lang : List Byte → β → List Byte → Prop}
    (one : ∀ str, Reads clean (following str) accepts (lang str)) :
    Reads clean (do
        let (got, str) ← readString maxStringSize maxStringSize
        if got ≠ code then cleanupWith refused else following str : Parse β)
      accepts fun got text => ∃ str tail, IsWord str ∧ lang str got tail ∧
        text = str ++ delimiter :: tail := by
  have string : Reads clean (readString maxStringSize maxStringSize)
      (fun outcome => outcome.1 = code) (StringText maxStringSize []) :=
    (reads_readStringLoop clean maxStringSize maxStringSize []).weaken
      fun _ same => same ▸ ends.nonneg
  have later : ∀ (outcome : Int × List Byte) (head : List Byte), outcome.1 = code →
      StringText maxStringSize [] outcome head → (∀ token ∈ head, clean token) →
      Reads clean (if outcome.1 ≠ code then cleanupWith refused else following outcome.2 : Parse β)
        accepts (lang outcome.2) := by
    intro outcome _ same _ _
    rw [if_neg fun different => different same]
    exact one outcome.2
  have failed : ∀ outcome : Int × List Byte, ¬ outcome.1 = code →
      Gives (if outcome.1 ≠ code then cleanupWith refused else following outcome.2 : Parse β)
        fun got => ¬ accepts got := by
    intro outcome other
    rw [if_pos other]
    exact gives_cleanupWith refuses
  refine Reads.congr (reads_bind string later failed) fun got text _ _ => ?_
  constructor
  · rintro ⟨⟨_, str⟩, _, tail, rfl, ⟨_, delimiter', undelimited, short, ends', rfl, rfl⟩, isTail,
      rfl⟩
    refine ⟨str, tail, ⟨short, undelimited⟩, isTail, ?_⟩
    cases ends <;> cases ends' <;> simp
  · rintro ⟨str, tail, word, isTail, rfl⟩
    exact ⟨(code, str), str ++ [delimiter], tail, rfl,
      ⟨str, delimiter, word.undelimited, word.short, ends, rfl, rfl⟩, isTail, by simp⟩

/-- **`parse_pair`** reads two strings, behind the opening bracket, on any bytes. -/
theorem reads_parsePair_words (clean : Byte → Prop) :
    Reads clean (parsePair maxStringSize) (· ≠ none) fun got text =>
      ∃ key value, IsWord key ∧ IsWord value ∧ got = some (key, value) ∧
        text = key ++ ','.toUInt8 :: (value ++ [')'.toUInt8]) := by
  have refuses : ¬ (none : Option (List Byte × List Byte)) ≠ none := fun different => different rfl
  have value : ∀ key, Reads clean _ (· ≠ none) _ := fun key =>
    reads_delimited .bracket (· ≠ none) refuses (fun value => return some (key, value))
      fun value => reads_pure (some (key, value))
  refine Reads.congr (reads_delimited .comma (· ≠ none) refuses (fun key => do
    let (code, value) ← readString maxStringSize maxStringSize
    if code ≠ 1 then cleanupWith none else return some (key, value)) value) fun got text _ _ => ?_
  constructor
  · rintro ⟨key, _, keyWord, ⟨value, _, valueWord, ⟨rfl, rfl⟩, rfl⟩, rfl⟩
    exact ⟨key, value, keyWord, valueWord, rfl, rfl⟩
  · rintro ⟨key, value, keyWord, valueWord, rfl, rfl⟩
    exact ⟨key, _, keyWord, ⟨value, [], valueWord, ⟨rfl, rfl⟩, rfl⟩, rfl⟩

/-- On bytes that are not NUL, the two strings of a pair. -/
theorem reads_parsePair :
    Reads NonNul (parsePair maxStringSize) (· ≠ none) fun got text =>
      ∃ pair : CStr × CStr, IsItemPair pair ∧ got = some (pair.1.bytes, pair.2.bytes) ∧
        text = pairTail pair := by
  refine Reads.congr (reads_parsePair_words NonNul) fun got text _ clean => ?_
  constructor
  · rintro ⟨key, value, keyWord, valueWord, rfl, rfl⟩
    have keyNul : nul ∉ key := fun member => clean nul (by simp [member]) rfl
    have valueNul : nul ∉ value := fun member => clean nul (by simp [member]) rfl
    exact ⟨(⟨key, keyNul⟩, ⟨value, valueNul⟩), ⟨⟨keyWord.short, keyWord.undelimited⟩,
      valueWord.short, valueWord.undelimited⟩, rfl, by simp [pairTail]⟩
  · rintro ⟨⟨key, value⟩, ⟨keyItem, valueItem⟩, rfl, rfl⟩
    exact ⟨key.bytes, value.bytes, ⟨keyItem.short, keyItem.undelimited⟩,
      ⟨valueItem.short, valueItem.undelimited⟩, rfl, by simp [pairTail]⟩

/-- A pair copied to the arrays, and what is read behind it. -/
theorem reads_copiedPair {β : Type} {accepts : β → Prop} {refused : β}
    (refuses : ¬ accepts refused) (following : CStr → CStr → Parse β)
    {lang : CStr → CStr → β → List Byte → Prop}
    (one : ∀ key value, Reads NonNul (following key value) accepts (lang key value)) :
    Reads NonNul (do
        let pair ← parsePair maxStringSize
        match pair with
        | none => cleanupWith refused
        | some (key, value) => do
          let key ← copyRow key
          let value ← copyRow value
          following key value : Parse β)
      accepts fun got text => ∃ (pair : CStr × CStr) (tail : List Byte), IsItemPair pair ∧
        lang pair.1 pair.2 got tail ∧ text = pairTail pair ++ tail := by
  have later : ∀ (outcome : Option (List Byte × List Byte)) (head : List Byte), outcome ≠ none →
      (∃ pair : CStr × CStr, IsItemPair pair ∧ outcome = some (pair.1.bytes, pair.2.bytes) ∧
        head = pairTail pair) → (∀ token ∈ head, NonNul token) →
      Reads NonNul (match outcome with
        | none => cleanupWith refused
        | some (key, value) => do
          let key ← copyRow key
          let value ← copyRow value
          following key value : Parse β)
        accepts fun got tail => ∃ pair : CStr × CStr, outcome = some (pair.1.bytes, pair.2.bytes) ∧
          lang pair.1 pair.2 got tail := by
    rintro _ _ _ ⟨⟨key, value⟩, _, rfl, rfl⟩ _
    refine Reads.congr (reads_skip (passes_copyRow key) (reads_skip (passes_copyRow value)
      (one key value))) fun got tail _ _ => ?_
    constructor
    · exact fun isTail => ⟨(key, value), rfl, isTail⟩
    · rintro ⟨⟨key', value'⟩, same, isTail⟩
      obtain ⟨sameKey, sameValue⟩ := Prod.mk.inj (Option.some.inj same)
      obtain rfl := CStr.ext sameKey
      obtain rfl := CStr.ext sameValue
      exact isTail
  have failed : ∀ outcome : Option (List Byte × List Byte), ¬ outcome ≠ none →
      Gives (match outcome with
        | none => cleanupWith refused
        | some (key, value) => do
          let key ← copyRow key
          let value ← copyRow value
          following key value : Parse β) fun got => ¬ accepts got := by
    intro outcome nothing
    rw [not_not.mp nothing]
    exact gives_cleanupWith refuses
  refine Reads.congr (reads_bind reads_parsePair later failed) fun got text _ _ => ?_
  constructor
  · rintro ⟨_, _, tail, _, ⟨pair, item, rfl, rfl⟩, ⟨pair', same, isTail⟩, rfl⟩
    obtain ⟨sameKey, sameValue⟩ := Prod.mk.inj (Option.some.inj same)
    obtain rfl : pair' = pair := Prod.ext (CStr.ext sameKey.symm) (CStr.ext sameValue.symm)
    exact ⟨pair', tail, item, isTail, rfl⟩
  · rintro ⟨pair, tail, item, isTail, rfl⟩
    exact ⟨some (pair.1.bytes, pair.2.bytes), pairTail pair, tail, by simp,
      ⟨pair, item, rfl, rfl⟩, ⟨pair, rfl, isTail⟩, rfl⟩

/-- The pairs a loop may still store, the first opening bracket left out. -/
structure PairsLeft (room : ℕ) (pairs : List (CStr × CStr)) (text : List Byte) : Prop where
  nonempty : pairs ≠ []
  fits : pairs.length ≤ room
  items : ∀ pair ∈ pairs, IsItemPair pair
  text : '('.toUInt8 :: text = pairs.flatMap pairForm ++ ascii [']']

theorem not_pairsLeft_zero {pairs : List (CStr × CStr)} {text : List Byte} :
    ¬ PairsLeft 0 pairs text :=
  fun left => left.nonempty (List.length_eq_zero_iff.mp (Nat.le_zero.mp left.fits))

theorem pairForm_eq (pair : CStr × CStr) : pairForm pair = '('.toUInt8 :: pairTail pair := by
  simp [pairForm, pairTail]

/-- One pair and the closing bracket, or one pair and more pairs. -/
theorem pairsLeft_succ {room : ℕ} {pairs : List (CStr × CStr)} {text : List Byte} :
    PairsLeft (room + 1) pairs text ↔ ∃ pair, IsItemPair pair ∧
      ((pairs = [pair] ∧ text = pairTail pair ++ [']'.toUInt8]) ∨
        ∃ pairs' tail, PairsLeft room pairs' tail ∧ pairs = pair :: pairs' ∧
          text = pairTail pair ++ '('.toUInt8 :: tail) := by
  constructor
  · rintro ⟨nonempty, fits, items, split⟩
    obtain ⟨pair, pairs, rfl⟩ := List.exists_cons_of_ne_nil nonempty
    obtain ⟨item, items⟩ := List.forall_mem_cons.mp items
    rw [List.flatMap_cons, pairForm_eq, List.cons_append, List.cons_append] at split
    obtain ⟨_, rfl⟩ := List.cons.inj split
    refine ⟨pair, item, ?_⟩
    cases pairs with
    | nil => exact .inl ⟨rfl, by simp⟩
    | cons next pairs =>
      refine .inr ⟨next :: pairs, pairTail next ++ pairs.flatMap pairForm ++ ascii [']'],
        ⟨List.cons_ne_nil _ _, by simpa using fits, items, ?_⟩, rfl, ?_⟩
      · simp [pairForm_eq]
      · simp [pairForm_eq]
  · rintro ⟨pair, item, ⟨rfl, rfl⟩ | ⟨pairs, tail, ⟨nonempty, fits, items, split⟩, rfl, rfl⟩⟩
    · exact ⟨List.cons_ne_nil _ _, by simp, by simpa using item, by simp [pairForm_eq]⟩
    · refine ⟨List.cons_ne_nil _ _, by simpa using fits, List.forall_mem_cons.mpr ⟨item, items⟩, ?_⟩
      rw [split, List.flatMap_cons, pairForm_eq]
      simp

/-- What follows a pair: a bracket opens the next one, a square bracket closes the list. -/
theorem reads_afterPair {β : Type} {accepts : β → Prop} {refused : β} (refuses : ¬ accepts refused)
    {more closed : Parse β} {langMore langClosed : β → List Byte → Prop}
    (one : Reads NonNul more accepts langMore) (two : Reads NonNul closed accepts langClosed) :
    Reads NonNul (do
        let ch ← read 1
        if ch = ascii ['('] then more else if ch = ascii [']'] then closed
        else cleanupWith refused : Parse β)
      accepts fun got text => ∃ tail, (langMore got tail ∧ text = '('.toUInt8 :: tail) ∨
        (langClosed got tail ∧ text = ']'.toUInt8 :: tail) := by
  have failed : Gives (cleanupWith refused : Parse β) fun got => ¬ accepts got :=
    gives_cleanupWith refuses
  have differ : '('.toUInt8 ≠ ']'.toUInt8 := by decide
  have following : ∀ token, NonNul token → Reads NonNul
      (if [token] = ascii ['('] then more else if [token] = ascii [']'] then closed
        else cleanupWith refused : Parse β)
      accepts fun got tail => (token = '('.toUInt8 ∧ langMore got tail) ∨
        (token = ']'.toUInt8 ∧ langClosed got tail) := by
    intro token _
    by_cases opens : token = '('.toUInt8
    · subst opens
      refine Reads.congr one fun got tail _ _ => ?_
      simp [differ]
    · by_cases closes : token = ']'.toUInt8
      · subst closes
        refine Reads.congr two fun got tail _ _ => ?_
        simp [differ.symm]
      · rw [if_neg (by simpa using opens), if_neg (by simpa using closes)]
        refine Reads.congr (reads_refuse failed) fun got tail _ _ => ?_
        simp [opens, closes]
  refine Reads.congr (reads_token following failed) fun got text _ _ => ?_
  constructor
  · rintro ⟨_, tail, _, ⟨rfl, isTail⟩ | ⟨rfl, isTail⟩, rfl⟩
    · exact ⟨tail, .inl ⟨isTail, rfl⟩⟩
    · exact ⟨tail, .inr ⟨isTail, rfl⟩⟩
  · rintro ⟨tail, ⟨isTail, rfl⟩ | ⟨isTail, rfl⟩⟩
    · exact ⟨_, tail, show '('.toUInt8 ≠ nul by decide, .inl ⟨rfl, isTail⟩, rfl⟩
    · exact ⟨_, tail, show ']'.toUInt8 ≠ nul by decide, .inr ⟨rfl, isTail⟩, rfl⟩

/-- The loop of `parse_write`. -/
theorem reads_parseWriteLoop (room : ℕ) (earlier : List (CStr × CStr)) :
    Reads NonNul (parseWriteLoop maxStringSize room earlier) (NotFull (earlier.length + room))
      fun got text => ∃ pairs, got = some (earlier ++ pairs) ∧ PairsLeft room pairs text := by
  induction room generalizing earlier with
  | zero =>
    refine Reads.congr (reads_refuse (gives_pure ?_)) fun got text _ _ => ?_
    · rintro ⟨items, same, different⟩
      cases same
      exact different rfl
    · constructor
      · exact False.elim
      · rintro ⟨pairs, _, left⟩
        exact not_pairsLeft_zero left
  | succ room ih =>
    have more : ∀ pair, Reads NonNul (parseWriteLoop maxStringSize room (earlier ++ [pair]))
        (NotFull (earlier.length + (room + 1))) _ := fun pair =>
      length_stored earlier pair room ▸ ih (earlier ++ [pair])
    rw [parseWriteLoop]
    refine Reads.congr (reads_copiedPair not_notFull_none (fun key value => do
      let ch ← read 1
      if ch = ascii ['('] then parseWriteLoop maxStringSize room (earlier ++ [(key, value)])
      else if ch = ascii [']'] then return some (earlier ++ [(key, value)])
      else cleanupWith none) fun key value =>
        reads_afterPair not_notFull_none (more (key, value)) (reads_pure _)) fun got text _ _ => ?_
    constructor
    · rintro ⟨pair, _, item, ⟨tail, ⟨⟨pairs, rfl, left⟩, rfl⟩ | ⟨⟨rfl, rfl⟩, rfl⟩⟩, rfl⟩
      · exact ⟨pair :: pairs, by simp, pairsLeft_succ.mpr ⟨pair, item,
          .inr ⟨pairs, tail, left, rfl, rfl⟩⟩⟩
      · exact ⟨[pair], rfl, pairsLeft_succ.mpr ⟨pair, item, .inl ⟨rfl, rfl⟩⟩⟩
    · rintro ⟨pairs, rfl, left⟩
      obtain ⟨pair, item, ⟨rfl, rfl⟩ | ⟨pairs, tail, fewer, rfl, rfl⟩⟩ := pairsLeft_succ.mp left
      · exact ⟨pair, _, item, ⟨[], .inr ⟨⟨rfl, rfl⟩, rfl⟩⟩, rfl⟩
      · exact ⟨pair, _, item, ⟨tail, .inl ⟨⟨pairs, by simp, fewer⟩, rfl⟩⟩, rfl⟩

/-! ### The ends of a list -/

/-- A byte that must stand there. -/
theorem reads_expect {β : Type} {expected : Byte} (nonNul : expected ≠ nul) (accepts : β → Prop)
    {refused : β} (refuses : ¬ accepts refused) {following : Parse β} {lang : β → List Byte → Prop}
    (one : Reads NonNul following accepts lang) :
    Reads NonNul (do
        let ch ← read 1
        if ch ≠ [expected] then cleanupWith refused else following : Parse β)
      accepts fun got text => ∃ tail, lang got tail ∧ text = expected :: tail := by
  have failed : Gives (cleanupWith refused : Parse β) fun got => ¬ accepts got :=
    gives_cleanupWith refuses
  have clean : NonNul expected := nonNul
  apply reads_expected clean
  · rwa [if_neg fun different => different rfl]
  · intro token _ other
    rwa [if_pos (by simpa using other)]
  · exact failed

/-- The newline behind the list. -/
theorem reads_newline {α : Type} (items : List α) :
    Reads NonNul (do
        let ch ← read 1
        if ch = [newline] ∨ ch = [nul] then return items else cleanupWith [] : Parse (List α))
      (· ≠ []) fun got text => got = items ∧ text = [newline] := by
  have failed : Gives (cleanupWith [] : Parse (List α)) fun got => ¬ got ≠ [] :=
    gives_cleanupWith fun different => different rfl
  have expected : Reads NonNul (do
        let ch ← read 1
        if ch = [newline] ∨ ch = [nul] then return items else cleanupWith [] : Parse (List α))
      (· ≠ []) fun got text => ∃ tail, (got = items ∧ tail = []) ∧ text = newline :: tail := by
    have clean : NonNul newline := show newline ≠ nul by decide
    apply reads_expected clean
    · rw [if_pos (.inl rfl)]
      exact reads_pure items
    · intro token nonNul other
      have notNul : token ≠ nul := nonNul
      rwa [if_neg (by simp [other, notNul])]
    · exact failed
  refine expected.congr fun got text _ _ => ?_
  constructor
  · rintro ⟨_, ⟨rfl, rfl⟩, rfl⟩
    exact ⟨rfl, rfl⟩
  · rintro ⟨rfl, rfl⟩
    exact ⟨[], ⟨rfl, rfl⟩, rfl⟩

/-- **What follows the loop**: a full array is refused, whichever end the loop had. -/
theorem reads_afterLoop {α : Type} {max : ℕ} {loop : Parse (Option (List α))}
    {lang : List α → List Byte → Prop}
    (one : Reads NonNul loop (NotFull max) fun got text => ∃ items, got = some items ∧
      lang items text) :
    Reads NonNul (do let items ← loop; afterLoop max items) (· ≠ []) fun got text =>
      got.length ≠ max ∧ ∃ tail, lang got tail ∧ text = tail ++ [newline] := by
  have later : ∀ (outcome : Option (List α)) (head : List Byte), NotFull max outcome →
      (∃ items, outcome = some items ∧ lang items head) → (∀ token ∈ head, NonNul token) →
      Reads NonNul (afterLoop max outcome) (· ≠ []) fun got tail =>
        outcome = some got ∧ tail = [newline] := by
    rintro _ _ ⟨items, rfl, different⟩ _ _
    rw [afterLoop, parseEnd, if_neg different]
    refine Reads.congr (reads_newline items) fun got tail _ _ => ?_
    rw [Option.some.injEq, eq_comm]
  have failed : ∀ outcome : Option (List α), ¬ NotFull max outcome →
      Gives (afterLoop max outcome) fun got => ¬ got ≠ [] := by
    intro outcome full
    cases outcome with
    | none => exact gives_pure fun different => different rfl
    | some items =>
      rw [afterLoop, parseEnd, if_pos (not_not.mp fun different => full ⟨items, rfl, different⟩)]
      exact gives_cleanupWith fun different => different rfl
  refine Reads.congr (reads_bind one later failed) fun got text _ _ => ?_
  constructor
  · rintro ⟨_, head, _, ⟨items, rfl, different⟩, ⟨items', same, isHead⟩, ⟨same', rfl⟩, rfl⟩
    cases same
    cases same'
    exact ⟨different, head, isHead, rfl⟩
  · rintro ⟨different, tail, isHead, rfl⟩
    exact ⟨some got, tail, [newline], ⟨got, rfl, different⟩, ⟨got, rfl, isHead⟩, ⟨rfl, rfl⟩, rfl⟩

/-! ### The parsers -/

theorem keysForm_eq (keys : List CStr) :
    keysForm keys = '['.toUInt8 :: (keysTail keys ++ [newline]) := by
  simp [keysForm, keysTail]

/-- **`parse_read_delete`** reads a list of keys that does not fill the array. -/
theorem reads_parseReadDelete (max : ℕ) :
    Reads NonNul (parseReadDelete max maxStringSize) (· ≠ []) fun keys text =>
      keys.length ≠ max ∧ keys.length ≤ max ∧ (∀ key ∈ keys, IsItem key) ∧
        text = keysForm keys := by
  have loop : Reads NonNul (parseKeysLoop maxStringSize max []) (NotFull max) _ :=
    (reads_parseKeysLoop max []).weaken fun _ good => by simpa using good
  refine Reads.congr (reads_expect (show '['.toUInt8 ≠ nul by decide) (· ≠ [])
    (fun different => different rfl) (reads_afterLoop loop)) fun keys text nonempty _ => ?_
  constructor
  · rintro ⟨_, ⟨different, tail, left, rfl⟩, rfl⟩
    exact ⟨different, left.fits, left.items, by rw [keysForm_eq, left.text]⟩
  · rintro ⟨different, fits, items, rfl⟩
    exact ⟨_, ⟨different, _, ⟨nonempty, fits, items, rfl⟩, rfl⟩, keysForm_eq keys⟩

theorem pairsForm_eq {pairs : List (CStr × CStr)} {tail : List Byte}
    (text : '('.toUInt8 :: tail = pairs.flatMap pairForm ++ ascii [']']) :
    pairsForm pairs = '['.toUInt8 :: '('.toUInt8 :: (tail ++ [newline]) := by
  have split : pairsForm pairs =
      ascii ['['] ++ (pairs.flatMap pairForm ++ ascii [']']) ++ [newline] := by
    simp [pairsForm]
  rw [split, ← text]
  simp

/-- **`parse_write`** reads a list of pairs that does not fill the arrays. -/
theorem reads_parseWrite (max : ℕ) :
    Reads NonNul (parseWrite max maxStringSize) (· ≠ []) fun pairs text =>
      pairs.length ≠ max ∧ pairs.length ≤ max ∧ (∀ pair ∈ pairs, IsItemPair pair) ∧
        text = pairsForm pairs := by
  have loop : Reads NonNul (parseWriteLoop maxStringSize max []) (NotFull max) _ :=
    (reads_parseWriteLoop max []).weaken fun _ good => by simpa using good
  have refuses : ¬ ([] : List (CStr × CStr)) ≠ [] := fun different => different rfl
  refine Reads.congr (reads_expect (show '['.toUInt8 ≠ nul by decide) (· ≠ []) refuses
    (reads_expect (show '('.toUInt8 ≠ nul by decide) (· ≠ []) refuses (reads_afterLoop loop)))
    fun pairs text nonempty _ => ?_
  constructor
  · rintro ⟨_, ⟨_, ⟨different, tail, left, rfl⟩, rfl⟩, rfl⟩
    exact ⟨different, left.fits, left.items, (pairsForm_eq left.text).symm⟩
  · rintro ⟨different, fits, items, rfl⟩
    obtain ⟨pair, pairs, rfl⟩ := List.exists_cons_of_ne_nil nonempty
    have text : '('.toUInt8 :: (pairTail pair ++ pairs.flatMap pairForm ++ ascii [']']) =
        (pair :: pairs).flatMap pairForm ++ ascii [']'] := by
      rw [List.flatMap_cons, pairForm_eq]
      simp
    exact ⟨_, ⟨_, ⟨different, _, ⟨nonempty, fits, items, text⟩, rfl⟩, rfl⟩, pairsForm_eq text⟩

/-- A parser that refuses full arrays accepts exactly its grammar where none is filled. -/
theorem acceptsExactly_iff_of_reads {α : Type} {parse : Parse (List α)} {good : α → Prop}
    {form : List α → List Byte} {max : ℕ}
    (reads : Reads NonNul parse (· ≠ []) fun items text =>
      items.length ≠ max ∧ items.length ≤ max ∧ (∀ item ∈ items, good item) ∧ text = form items)
    (input : CStr) :
    AcceptsExactly parse good form max input ↔ ¬ FillsArray good form max input := by
  have clean : ∀ byte ∈ input.bytes, NonNul byte := fun byte member same =>
    input.noNul (same ▸ member)
  constructor
  · rintro accepts ⟨items, rest, nonempty, full, isGood, split⟩
    have stored := accepts.stores items rest nonempty full.le isGood split
    obtain ⟨text, ⟨different, _⟩, _⟩ := (reads input.bytes clean items rest nonempty).mp stored
    exact different full
  · intro unfilled
    refine acceptsExactly_of_iff fun items rest nonempty => ?_
    rw [reads input.bytes clean items rest nonempty]
    constructor
    · rintro ⟨_, ⟨_, fits, isGood, rfl⟩, split⟩
      exact ⟨fits, isGood, split⟩
    · rintro ⟨fits, isGood, split⟩
      refine ⟨_, ⟨fun full => ?_, fits, isGood, rfl⟩, split⟩
      exact unfilled ⟨items, rest, nonempty, full, isGood, split⟩

/-- Both list parsers accept exactly their grammar on this input. -/
structure ServerListsExact (max : ℕ) (input : CStr) : Prop where
  pairs : AcceptsExactly (parseWrite max maxStringSize) IsItemPair pairsForm max input
  keys : AcceptsExactly (parseReadDelete max maxStringSize) IsItem keysForm max input

/-- **The list parsers accept exactly their grammar** but on lists that fill the array. -/
theorem serverLists_exact_iff (max : ℕ) (input : CStr) :
    ServerListsExact max input ↔
      ¬ FillsArray IsItemPair pairsForm max input ∧ ¬ FillsArray IsItem keysForm max input := by
  rw [← acceptsExactly_iff_of_reads (reads_parseWrite max),
    ← acceptsExactly_iff_of_reads (reads_parseReadDelete max)]
  constructor
  · exact fun exact => ⟨exact.pairs, exact.keys⟩
  · exact fun exact => ⟨exact.1, exact.2⟩

/-- The key of a list with one key. -/
def onlyKey : CStr := ⟨ascii ['k'], by decide⟩

theorem onlyKey_isItem : IsItem onlyKey := by
  refine ⟨by decide, fun byte member => ?_⟩
  obtain rfl := List.mem_singleton.mp member
  decide

/-- The text of that list. -/
def onlyKeyText : CStr := ⟨ascii ['[', 'k', ']'] ++ [newline], by decide⟩

/-- A list of one key fills an array of one. -/
theorem onlyKeyText_not_exact : ¬ ∀ max, 0 < max → ∀ input, ServerListsExact max input := by
  intro exact
  have stored := (exact 1 Nat.one_pos onlyKeyText).keys.stores [onlyKey] [] (List.cons_ne_nil _ _)
    le_rfl (List.forall_mem_singleton.mpr onlyKey_isItem) (by simp [onlyKeyText, onlyKey, keysForm])
  exact absurd stored.1 (by decide)

end Kvs.Server
