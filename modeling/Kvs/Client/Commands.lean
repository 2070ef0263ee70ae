/-
**The client's command language (`client/parser.c`).**

`main` reads its standard input by `get_next` and the argument parsers. The input is taken to be a
file, so that a read is short only at its end. `requests` lists what a standard input asks for, up
to `EOC`, whether or not `main` reads so far.

`get_next` tells `DELAY` from `DISCONNECT` by reading on where it stands, and `parse_delay` takes
the byte behind the number without looking at it. On lines as they are meant to be written neither
does harm: `requests_scriptText` reads them back one by one.

`client/parser.c` has its own copies of `read_uint` and `cleanup`, with the text of the server's;
the server's definitions stand for both.
-/

import Kvs.Client.ParseList
import Kvs.Job.Commands

namespace Kvs.Client

open Scanner.Scan
open Server (Parse readUint cleanupWith uintMax decimal)

/-! ### The dispatcher -/

/-- `enum Command`. -/
inductive Command where
  | disconnect | subscribe | unsubscribe | delay | empty | invalid
  /-- `EOC`, the end of the commands. -/
  | eoc
deriving DecidableEq

/-- `SUBSCRIBE` and `UNSUBSCRIBE`: the rest of the word and the blank after it. -/
def keywordWithBlank (rest : List Byte) (command : Command) : Parse Command := do
  let got ← read rest.length
  if got = rest then return command else cleanupWith .invalid

/-- `DELAY` and `DISCONNECT`: five bytes, and when they do not read `"ELAY "` four more, with a
newline or the end of the file behind them. -/
def delayOrDisconnect : Parse Command := do
  let got ← read 5
  if got = ascii ['E', 'L', 'A', 'Y', ' '] then return .delay
  else do
    let more ← read 4
    if got ++ more = ascii ['I', 'S', 'C', 'O', 'N', 'N', 'E', 'C', 'T'] then do
      let last ← read 1
      if last = [] ∨ last = [newline] then return .disconnect else cleanupWith .invalid
    else cleanupWith .invalid

/-- The `switch` of `get_next` on the first character. -/
def commandAfter (ch : Byte) : Parse Command :=
  if ch = 'S'.toUInt8 then
    keywordWithBlank (ascii ['U', 'B', 'S', 'C', 'R', 'I', 'B', 'E', ' ']) .subscribe
  else if ch = 'U'.toUInt8 then
    keywordWithBlank (ascii ['N', 'S', 'U', 'B', 'S', 'C', 'R', 'I', 'B', 'E', ' ']) .unsubscribe
  else if ch = 'D'.toUInt8 then delayOrDisconnect
  else if ch = '#'.toUInt8 then cleanupWith .empty
  else if ch = newline then return .empty
  else cleanupWith .invalid

/-- `get_next`. -/
def getNext : Parse Command := do
  let first ← read 1
  match first with
  | [] => return .eoc
  | ch :: _ => commandAfter ch

/-- `parse_delay`: the number stored, none when it returns `-1`. -/
def parseDelay (garbage : List Byte) : Parse (Option ℕ) := do
  let (delay, _) ← readUint garbage
  match delay with
  | none => cleanupWith none
  | some delay => return some delay

/-! ### Requests -/

/-- What a command asks `main` to do, its arguments parsed. -/
inductive Request where
  | disconnect
  | subscribe (key : CStr)
  | unsubscribe (key : CStr)
  | delay (ms : ℕ)
  | empty
  | invalid
deriving DecidableEq

/-- The key of a SUBSCRIBE or an UNSUBSCRIBE. -/
def Request.key : Request → Option CStr
  | .subscribe key | .unsubscribe key => some key
  | _ => none

/-- The argument of SUBSCRIBE and UNSUBSCRIBE: `keys[0]`, when `parse_list` stores a key. -/
def keyArgument (request : CStr → Request) : Parse Request := do
  let keys ← parseList 1 maxStringSize
  match keys with
  | [] => return .invalid
  | key :: _ => return request key

/-- The arguments of a command; none at `EOC`. -/
def parseArguments (garbage : List Byte) : Command → Parse (Option Request)
  | .disconnect => return some .disconnect
  | .subscribe => do
    let request ← keyArgument .subscribe
    return some request
  | .unsubscribe => do
    let request ← keyArgument .unsubscribe
    return some request
  | .delay => do
    let delay ← parseDelay garbage
    match delay with
    | none => return some .invalid
    | some ms => return some (.delay ms)
  | .empty => return some .empty
  | .invalid => return some .invalid
  | .eoc => return none

/-- The next command with its arguments. -/
def nextRequest (garbage : List Byte) : Parse (Option Request) := do
  let command ← getNext
  parseArguments garbage command

/-- The requests of the first commands of an input. -/
def requestsWithin (garbage : List Byte) : ℕ → List Byte → List Request
  | 0, _ => []
  | commands + 1, input =>
    match (nextRequest garbage input).val with
    | none => []
    | some request => request :: requestsWithin garbage commands (nextRequest garbage input).rest

/-- The requests of an input. -/
def requests (garbage input : List Byte) : List Request :=
  requestsWithin garbage (input.length + 1) input

/-! ### Every command is read -/

theorem regular_keywordWithBlank (rest : List Byte) (command : Command) :
    Regular (keywordWithBlank rest command) :=
  regular_bind (regular_read _) fun _ =>
    regular_ite (regular_pure _) (Server.regular_cleanupWith _)

theorem regular_delayOrDisconnect : Regular delayOrDisconnect :=
  regular_bind (regular_read 5) fun _ => regular_ite (regular_pure _) <|
    regular_bind (regular_read 4) fun _ => regular_ite
      (regular_bind (regular_read 1) fun _ =>
        regular_ite (regular_pure _) (Server.regular_cleanupWith _))
      (Server.regular_cleanupWith _)

theorem regular_commandAfter (ch : Byte) : Regular (commandAfter ch) :=
  regular_ite (regular_keywordWithBlank _ _) <| regular_ite (regular_keywordWithBlank _ _) <|
    regular_ite regular_delayOrDisconnect <| regular_ite (Server.regular_cleanupWith _) <|
    regular_ite (regular_pure _) (Server.regular_cleanupWith _)

theorem regular_parseListLoop (stringSize room : ℕ) :
    ∀ output keys, Regular (parseListLoop stringSize room output keys) := by
  induction room with
  | zero => exact fun output keys => regular_pure _
  | succ room ih =>
    intro output keys
    exact regular_bind (Server.regular_readString _ _) fun _ =>
      regular_ite (Server.regular_cleanupWith _) (regular_bind (Server.regular_copyRow _) fun _ =>
        regular_ite (regular_pure _) (ih _ _))

theorem regular_parseList (maxKeys stringSize : ℕ) : Regular (parseList maxKeys stringSize) := by
  refine regular_bind (regular_read 1) fun _ => regular_ite (Server.regular_cleanupWith _) ?_
  refine regular_bind (regular_parseListLoop _ _ _ _) fun outcome => ?_
  cases outcome with
  | none => exact regular_pure _
  | some outcome =>
    exact regular_ite (Server.regular_cleanupWith _) (regular_bind (regular_read 1) fun _ =>
      regular_ite (regular_pure _) (Server.regular_cleanupWith _))

theorem regular_keyArgument (request : CStr → Request) : Regular (keyArgument request) := by
  refine regular_bind (regular_parseList _ _) fun keys => ?_
  cases keys with
  | nil => exact regular_pure _
  | cons key _ => exact regular_pure _

theorem regular_parseDelay (garbage : List Byte) : Regular (parseDelay garbage) := by
  refine regular_bind (Server.regular_readUint garbage) fun number => ?_
  obtain ⟨delay, _⟩ := number
  cases delay with
  | none => exact Server.regular_cleanupWith _
  | some delay => exact regular_pure _

theorem regular_parseArguments (garbage : List Byte) (command : Command) :
    Regular (parseArguments garbage command) := by
  cases command with
  | subscribe => exact regular_bind (regular_keyArgument _) fun _ => regular_pure _
  | unsubscribe => exact regular_bind (regular_keyArgument _) fun _ => regular_pure _
  | delay =>
    refine regular_bind (regular_parseDelay garbage) fun delay => ?_
    cases delay with
    | none => exact regular_pure _
    | some ms => exact regular_pure _
  | _ => exact regular_pure _

theorem regular_nextRequest (garbage : List Byte) : Regular (nextRequest garbage) := by
  refine regular_bind (regular_bind (regular_read 1) fun first => ?_)
    fun command => regular_parseArguments garbage command
  cases first with
  | nil => exact regular_pure _
  | cons ch _ => exact regular_commandAfter ch

/-- What follows the first character of a command. -/
def requestAfter (garbage : List Byte) (ch : Byte) : Parse (Option Request) := do
  let command ← commandAfter ch
  parseArguments garbage command

theorem nextRequest_cons (garbage : List Byte) (ch : Byte) (input : List Byte) :
    nextRequest garbage (ch :: input) = requestAfter garbage ch input := by
  rw [nextRequest, requestAfter, bind_apply, bind_apply, getNext,
    bind_of_clean (read_one_cons ch input)]

/-- A first character is never the end of the commands. -/
theorem commandAfter_ne_eoc (ch : Byte) : Gives (commandAfter ch) (· ≠ .eoc) := by
  have cleaned : Gives (cleanupWith Command.invalid) (· ≠ .eoc) :=
    Server.gives_cleanupWith (by decide)
  have withBlank : ∀ (keyword : List Byte) (command : Command), command ≠ .eoc →
      Gives (keywordWithBlank keyword command) (· ≠ .eoc) := fun keyword command different =>
    gives_bind_any fun _ => gives_ite (gives_pure different) cleaned
  have delay : Gives delayOrDisconnect (· ≠ .eoc) :=
    gives_bind_any fun _ => gives_ite (gives_pure (by decide)) <|
      gives_bind_any fun _ => gives_ite
        (gives_bind_any fun _ => gives_ite (gives_pure (by decide)) cleaned) cleaned
  exact gives_ite (withBlank _ _ (by decide)) <| gives_ite (withBlank _ _ (by decide)) <|
    gives_ite delay <| gives_ite (Server.gives_cleanupWith (by decide)) <|
    gives_ite (gives_pure (by decide)) cleaned

theorem parseArguments_isSome (garbage : List Byte) {command : Command}
    (different : command ≠ .eoc) : Gives (parseArguments garbage command) (·.isSome) := by
  cases command with
  | eoc => exact absurd rfl different
  | subscribe => exact gives_bind_any fun _ => gives_pure rfl
  | unsubscribe => exact gives_bind_any fun _ => gives_pure rfl
  | delay =>
    refine gives_bind_any fun delay => ?_
    cases delay with
    | none => exact gives_pure rfl
    | some ms => exact gives_pure rfl
  | _ => exact gives_pure rfl

/-- **One command** of an input that is not at its end: a request, and fewer bytes left. -/
theorem nextRequest_progress (garbage : List Byte) {input : List Byte} (nonempty : input ≠ []) :
    ∃ request, (nextRequest garbage input).val = some request ∧
      (nextRequest garbage input).rest.length < input.length := by
  obtain ⟨ch, input, rfl⟩ := List.exists_cons_of_ne_nil nonempty
  have given : (requestAfter garbage ch input).val.isSome :=
    gives_bind (commandAfter_ne_eoc ch)
      (fun _ different => parseArguments_isSome garbage different) input
  have regular : Regular (requestAfter garbage ch) :=
    regular_bind (regular_commandAfter ch) fun _ => regular_parseArguments garbage _
  obtain ⟨request, equal⟩ := Option.isSome_iff_exists.mp given
  rw [nextRequest_cons]
  exact ⟨request, equal, Nat.lt_succ_of_le (regular.suffix input).length_le⟩

theorem requestsWithin_enough (garbage : List Byte) (input : List Byte) :
    ∀ {commands : ℕ}, input.length < commands →
      requestsWithin garbage commands input = requests garbage input := by
  induction bytes : input.length using Nat.strong_induction_on generalizing input with
  | _ size ih =>
    intro commands enough
    obtain ⟨commands, rfl⟩ : ∃ fewer, commands = fewer + 1 := ⟨commands - 1, by omega⟩
    rw [requests]
    by_cases nonempty : input = []
    · subst nonempty
      rfl
    obtain ⟨request, equal, shorter⟩ := nextRequest_progress garbage nonempty
    rw [requestsWithin, requestsWithin, equal]
    rw [bytes] at shorter
    dsimp only
    rw [ih _ shorter _ rfl (by omega), ih _ shorter _ rfl (by omega)]

@[simp]
theorem requests_nil (garbage : List Byte) : requests garbage [] = [] := rfl

/-- **One request** of an input. -/
theorem requests_step {garbage input rest : List Byte} {request : Request}
    (next : (nextRequest garbage input).val = some request)
    (left : (nextRequest garbage input).rest = rest) :
    requests garbage input = request :: requests garbage rest := by
  subst left
  have nonempty : input ≠ [] := by
    rintro rfl
    cases next
  obtain ⟨_, _, shorter⟩ := nextRequest_progress garbage nonempty
  rw [requests, requestsWithin, next]
  exact congrArg _ (requestsWithin_enough garbage _ shorter)

/-! ### Keys are short -/

/-- The string ended by a delimiter in front of the bound. -/
def EndsBelow (bound : ℕ) (outcome : Int × List Byte) : Prop :=
  outcome.1 < 0 ∨ outcome.2.length < bound

theorem endsBelow_failed (bound : ℕ) (buffer : List Byte) : EndsBelow bound (-1, buffer) :=
  .inl (show (-1 : Int) < 0 by decide)

/-- `read_string` leaves room for a NUL behind a string that a delimiter ended. -/
theorem gives_readStringLoop (capacity room : ℕ) (buffer : List Byte) :
    Gives (Server.readStringLoop capacity room buffer) (EndsBelow (buffer.length + room)) := by
  induction room generalizing buffer with
  | zero => exact gives_bind_any fun _ => gives_pure (endsBelow_failed _ _)
  | succ room ih =>
    refine gives_bind_any fun bytesRead => ?_
    cases bytesRead with
    | nil => exact gives_pure (endsBelow_failed _ _)
    | cons ch _ =>
      have ends : ∀ code : Int, Gives (do
          store buffer.length capacity
          return (code, buffer) : Parse (Int × List Byte))
          (EndsBelow (buffer.length + (room + 1))) := fun code =>
        gives_bind_any fun _ => gives_pure (.inr (Nat.lt_add_of_pos_right (Nat.succ_pos room)))
      refine gives_ite (gives_pure (endsBelow_failed _ _)) (gives_ite (ends 0) (gives_ite (ends 1)
        (gives_ite (ends 2) (gives_bind_any fun _ input => ?_))))
      have later := ih (buffer ++ [ch]) input
      rwa [List.length_append, List.length_singleton, Nat.add_assoc, Nat.add_comm 1] at later

/-- A key that fits its row with its NUL. -/
def ShortKey (key : CStr) : Prop := key.length < maxStringSize

theorem gives_copyRow {buffer : List Byte} (short : buffer.length < maxStringSize) :
    Gives (Server.copyRow buffer) ShortKey :=
  gives_bind_any fun _ => gives_pure (lt_of_le_of_lt (List.takeWhile_prefix _).length_le short)

theorem gives_parseListLoop (room : ℕ) (output : Int) {earlier : List CStr}
    (shortEarlier : ∀ key ∈ earlier, ShortKey key) :
    Gives (parseListLoop maxStringSize room output earlier) fun outcome =>
      ∀ stored ∈ outcome, ∀ key ∈ stored.2, ShortKey key := by
  induction room generalizing output earlier with
  | zero =>
    refine gives_pure fun stored same => ?_
    cases same
    exact shortEarlier
  | succ room ih =>
    have string : Gives (Server.readString maxStringSize maxStringSize)
        (EndsBelow (0 + maxStringSize)) := gives_readStringLoop maxStringSize maxStringSize []
    rw [Nat.zero_add] at string
    refine gives_bind string fun outcome ends => ?_
    obtain ⟨code, buffer⟩ := outcome
    dsimp only
    split
    · exact Server.gives_cleanupWith fun stored member => by cases member
    · rename_i ended
      have inside := ends.resolve_left fun negative => ended (.inl negative)
      refine gives_bind (gives_copyRow inside) fun key short => ?_
      have shortAll : ∀ other ∈ earlier ++ [key], ShortKey other :=
        List.forall_mem_append.mpr ⟨shortEarlier, by simpa using short⟩
      refine gives_ite (gives_pure fun stored same => ?_) (ih _ shortAll)
      cases same
      exact shortAll

/-- **`parse_list`** stores short keys. -/
theorem gives_parseList (max : ℕ) :
    Gives (parseList max maxStringSize) fun keys => ∀ key ∈ keys, ShortKey key := by
  have none : ∀ key ∈ ([] : List CStr), ShortKey key := fun key member => by cases member
  refine gives_bind_any fun _ => gives_ite (Server.gives_cleanupWith none) ?_
  refine gives_bind (gives_parseListLoop max 2 none) fun outcome short => ?_
  cases outcome with
  | none => exact gives_pure none
  | some stored =>
    exact gives_ite (Server.gives_cleanupWith none) (gives_bind_any fun _ =>
      gives_ite (gives_pure (short stored rfl)) (Server.gives_cleanupWith none))

theorem gives_keyArgument {request : CStr → Request}
    (named : ∀ key, (request key).key = some key) :
    Gives (keyArgument request) fun request => ∀ key ∈ request.key, ShortKey key := by
  refine gives_bind (gives_parseList 1) fun keys short => ?_
  cases keys with
  | nil => exact gives_pure fun key member => by cases member
  | cons first _ =>
    refine gives_pure fun key member => ?_
    rw [named, Option.mem_some_iff] at member
    exact member ▸ short first List.mem_cons_self

theorem gives_parseArguments (garbage : List Byte) (command : Command) :
    Gives (parseArguments garbage command) fun request =>
      ∀ asked ∈ request, ∀ key ∈ asked.key, ShortKey key := by
  have passes : ∀ {argument : Parse Request},
      Gives argument (fun request => ∀ key ∈ request.key, ShortKey key) →
      Gives (do let request ← argument; return some request) fun request =>
        ∀ asked ∈ request, ∀ key ∈ asked.key, ShortKey key := fun gives =>
    gives_bind gives fun request short => gives_pure fun asked same => by cases same; exact short
  have keyless : ∀ {request : Option Request}, (∀ asked ∈ request, asked.key = none) →
      Gives (pure request : Parse (Option Request)) fun request =>
        ∀ asked ∈ request, ∀ key ∈ asked.key, ShortKey key := fun silent =>
    gives_pure fun asked member key named => by rw [silent asked member] at named; cases named
  cases command with
  | subscribe => exact passes (gives_keyArgument fun _ => rfl)
  | unsubscribe => exact passes (gives_keyArgument fun _ => rfl)
  | delay =>
    refine gives_bind_any fun delay => ?_
    cases delay with
    | none => exact keyless fun asked member => by cases member; rfl
    | some ms => exact keyless fun asked member => by cases member; rfl
  | _ => exact keyless fun asked member => by cases member <;> rfl

/-- **Every key asked for is short.** -/
theorem requests_short (garbage input : List Byte) :
    ∀ request ∈ requests garbage input, ∀ key ∈ request.key, ShortKey key := by
  induction bytes : input.length using Nat.strong_induction_on generalizing input with
  | _ size ih =>
    by_cases ended : input = []
    · rw [ended]
      exact fun request member => absurd member List.not_mem_nil
    obtain ⟨request, next, shorter⟩ := nextRequest_progress garbage ended
    rw [requests_step next rfl]
    have given : Gives (nextRequest garbage) fun request =>
        ∀ asked ∈ request, ∀ key ∈ asked.key, ShortKey key :=
      gives_bind_any fun _ => gives_parseArguments garbage _
    exact List.forall_mem_cons.mpr ⟨given input request next, ih _ (bytes ▸ shorter) _ rfl⟩

/-! ### Scripts -/

/-- A line of a standard input, written as it is meant to be. -/
inductive ScriptLine where
  | disconnect
  | subscribe (key : Server.Word)
  | unsubscribe (key : Server.Word)
  | delay (ms : ℕ) (fits : ms ≤ uintMax)
  | comment (text : List Byte) (oneLine : newline ∉ text)
  | emptyLine

namespace ScriptLine

/-- The text of a line, its newline included. -/
def text : ScriptLine → List Byte
  | disconnect => ascii ['D', 'I', 'S', 'C', 'O', 'N', 'N', 'E', 'C', 'T'] ++ [newline]
  | subscribe key =>
    ascii ['S', 'U', 'B', 'S', 'C', 'R', 'I', 'B', 'E', ' '] ++ Server.keysForm [key.str]
  | unsubscribe key =>
    ascii ['U', 'N', 'S', 'U', 'B', 'S', 'C', 'R', 'I', 'B', 'E', ' '] ++ Server.keysForm [key.str]
  | delay ms _ => ascii ['D', 'E', 'L', 'A', 'Y', ' '] ++ decimal ms ++ [newline]
  | comment text _ => ascii ['#'] ++ text ++ [newline]
  | emptyLine => [newline]

/-- What a line asks for. -/
def request : ScriptLine → Request
  | disconnect => .disconnect
  | subscribe key => .subscribe key.str
  | unsubscribe key => .unsubscribe key.str
  | delay ms _ => .delay ms
  | comment _ _ => .empty
  | emptyLine => .empty

end ScriptLine

/-- The text of a script. -/
def scriptText (script : List ScriptLine) : List Byte := script.flatMap ScriptLine.text

theorem keywordWithBlank_keyword (keyword : List Byte) (command : Command) (rest : List Byte) :
    keywordWithBlank keyword command (keyword ++ rest) = ⟨command, rest, false, false⟩ := by
  rw [keywordWithBlank, bind_of_clean (read_append keyword rest), if_pos rfl]
  rfl

theorem delayOrDisconnect_delay (rest : List Byte) :
    delayOrDisconnect (ascii ['E', 'L', 'A', 'Y', ' '] ++ rest) = ⟨.delay, rest, false, false⟩ := by
  have got : read 5 (ascii ['E', 'L', 'A', 'Y', ' '] ++ rest) =
      ⟨ascii ['E', 'L', 'A', 'Y', ' '], rest, false, false⟩ :=
    read_append (ascii ['E', 'L', 'A', 'Y', ' ']) rest
  rw [delayOrDisconnect, bind_of_clean got, if_pos rfl]
  rfl

theorem delayOrDisconnect_disconnect (rest : List Byte) :
    delayOrDisconnect (ascii ['I', 'S', 'C', 'O', 'N', 'N', 'E', 'C', 'T'] ++ newline :: rest) =
      ⟨.disconnect, rest, false, false⟩ := by
  have got : read 5 (ascii ['I', 'S', 'C', 'O', 'N', 'N', 'E', 'C', 'T'] ++ newline :: rest) =
      ⟨ascii ['I', 'S', 'C', 'O', 'N'],
        ascii ['N', 'E', 'C', 'T'] ++ newline :: rest, false, false⟩ :=
    read_append (ascii ['I', 'S', 'C', 'O', 'N']) (ascii ['N', 'E', 'C', 'T'] ++ newline :: rest)
  have more : read 4 (ascii ['N', 'E', 'C', 'T'] ++ newline :: rest) =
      ⟨ascii ['N', 'E', 'C', 'T'], newline :: rest, false, false⟩ :=
    read_append (ascii ['N', 'E', 'C', 'T']) (newline :: rest)
  rw [delayOrDisconnect, bind_of_clean got, if_neg (by decide), bind_of_clean more,
    if_pos (by decide), bind_of_clean (read_one_cons _ _), if_pos (Or.inr rfl)]
  rfl

/-- **`parse_list`** on a list of one key. -/
theorem parseList_one (key : Server.Word) (rest : List Byte) :
    parseList 1 maxStringSize (Server.keysForm [key.str] ++ rest) =
      ⟨[key.str], rest, false, false⟩ := by
  have text : Server.keysForm [key.str] ++ rest =
      '['.toUInt8 :: (key.str.bytes ++ ']'.toUInt8 :: newline :: rest) := by
    simp [Server.keysForm, ascii]
  rw [text, parseList, bind_of_clean (read_one_cons _ _)]
  show (parseListLoop maxStringSize 1 2 [] >>= _) _ = _
  have loop : parseListLoop maxStringSize 1 2 [] (key.str.bytes ++ ']'.toUInt8 :: newline :: rest) =
      ⟨some (2, [key.str]), newline :: rest, false, false⟩ := by
    rw [parseListLoop, bind_of_clean (Server.readString_word .square key _)]
    show (Server.copyRow key.str.bytes >>= _) _ = _
    rw [bind_of_clean (Server.copyRow_word key _)]
    rfl
  rw [bind_of_clean loop, afterListLoop, if_neg fun stopped => stopped.2 rfl,
    bind_of_clean (read_one_cons _ _),
    if_pos (Or.inl rfl)]
  rfl

theorem keyArgument_one (request : CStr → Request) (key : Server.Word) (rest : List Byte) :
    keyArgument request (Server.keysForm [key.str] ++ rest) =
      ⟨request key.str, rest, false, false⟩ := by
  rw [keyArgument, bind_of_clean (parseList_one key rest)]
  rfl

/-- **`parse_delay`** takes the newline behind its number. -/
theorem parseDelay_decimal (garbage : List Byte) {ms : ℕ} (fits : ms ≤ uintMax)
    (rest : List Byte) :
    parseDelay garbage (decimal ms ++ newline :: rest) = ⟨some ms, rest, false, false⟩ := by
  rw [parseDelay, bind_of_clean (Server.readUint_decimal garbage fits (by decide) rest)]
  rfl

/-- **One line**: its request, and the parser stands behind its newline. -/
theorem nextRequest_text (garbage : List Byte) (line : ScriptLine) (rest : List Byte) :
    nextRequest garbage (line.text ++ rest) = ⟨some line.request, rest, false, false⟩ := by
  cases line with
  | disconnect =>
    show requestAfter garbage 'D'.toUInt8
      (ascii ['I', 'S', 'C', 'O', 'N', 'N', 'E', 'C', 'T'] ++ newline :: rest) = _
    exact bind_of_clean (delayOrDisconnect_disconnect rest)
  | subscribe key =>
    rw [ScriptLine.text, List.append_assoc]
    show requestAfter garbage 'S'.toUInt8 (ascii ['U', 'B', 'S', 'C', 'R', 'I', 'B', 'E', ' '] ++
      (Server.keysForm [key.str] ++ rest)) = _
    rw [requestAfter, commandAfter, if_pos rfl, bind_of_clean (keywordWithBlank_keyword _ _ _),
      parseArguments, bind_of_clean (keyArgument_one _ key rest)]
    rfl
  | unsubscribe key =>
    rw [ScriptLine.text, List.append_assoc]
    show requestAfter garbage 'U'.toUInt8 (ascii ['N', 'S', 'U', 'B', 'S', 'C', 'R', 'I', 'B', 'E',
      ' '] ++ (Server.keysForm [key.str] ++ rest)) = _
    rw [requestAfter, commandAfter, if_neg (by decide), if_pos rfl,
      bind_of_clean (keywordWithBlank_keyword _ _ _), parseArguments,
      bind_of_clean (keyArgument_one _ key rest)]
    rfl
  | delay ms fits =>
    rw [ScriptLine.text, List.append_assoc, List.append_assoc]
    show requestAfter garbage 'D'.toUInt8 (ascii ['E', 'L', 'A', 'Y', ' '] ++
      (decimal ms ++ newline :: rest)) = _
    rw [requestAfter, commandAfter, if_neg (by decide), if_neg (by decide), if_pos rfl,
      bind_of_clean (delayOrDisconnect_delay _), parseArguments,
      bind_of_clean (parseDelay_decimal garbage fits rest)]
    rfl
  | comment text oneLine =>
    rw [ScriptLine.text, List.append_assoc, List.append_assoc]
    show requestAfter garbage '#'.toUInt8 (text ++ newline :: rest) = _
    have cleaned : cleanupWith Command.empty (text ++ newline :: rest) =
        ⟨.empty, rest, false, false⟩ := bind_of_clean (Server.cleanup_line text rest oneLine)
    exact bind_of_clean cleaned
  | emptyLine => rfl

/-- **A script is read back line by line**, in front of anything. -/
theorem requests_scriptText (garbage : List Byte) (script : List ScriptLine) (rest : List Byte) :
    requests garbage (scriptText script ++ rest) =
      script.map ScriptLine.request ++ requests garbage rest := by
  induction script with
  | nil => rfl
  | cons line script ih =>
    have next := nextRequest_text garbage line (scriptText script ++ rest)
    have split : scriptText (line :: script) ++ rest =
        line.text ++ (scriptText script ++ rest) := by
      rw [scriptText, List.flatMap_cons, List.append_assoc]
      rfl
    rw [split, requests_step (congrArg Scanner.Scanned.val next)
      (congrArg Scanner.Scanned.rest next), ih]
    rfl

end Kvs.Client
