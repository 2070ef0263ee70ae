/-
**The client asks for nothing its input does not say.**

`requests_scriptText` reads a script back that is written as it should be. On any other input
`get_next` and `parse_list` read what they find, across the ends of lines, and `cleanup` skips from
where they gave up. `requests_spelled`: whatever the input, every call to the server stands in it as
a command in full, and the commands stand one behind the other in the order of the calls.
-/

import Kvs.Client.Main

namespace Kvs.Client

open Scanner.Scan
open Server (Parse cleanupWith NonNul IsItem keysForm)

/-! ### Spellings -/

/-- The word in front of a key. -/
def Command.word : Command → List Byte
  | .subscribe => ascii ['S', 'U', 'B', 'S', 'C', 'R', 'I', 'B', 'E', ' ']
  | .unsubscribe => ascii ['U', 'N', 'S', 'U', 'B', 'S', 'C', 'R', 'I', 'B', 'E', ' ']
  | _ => []

/-- The command takes a key. -/
def Command.Keyed (command : Command) : Prop := command = .subscribe ∨ command = .unsubscribe

/-- The request a command makes of a key. -/
def Command.asks (command : Command) (key : CStr) : Request :=
  if command = .subscribe then .subscribe key else .unsubscribe key

/-- The text is the request's command in full; a DISCONNECT may end the input. -/
def Request.Spells : Request → List Byte → Prop
  | .subscribe key, text => IsItem key ∧ text = Command.word .subscribe ++ keysForm [key]
  | .unsubscribe key, text => IsItem key ∧ text = Command.word .unsubscribe ++ keysForm [key]
  | .disconnect, text =>
    text = ascii ['D', 'I', 'S', 'C', 'O', 'N', 'N', 'E', 'C', 'T'] ∨
      text = ascii ['D', 'I', 'S', 'C', 'O', 'N', 'N', 'E', 'C', 'T'] ++ [newline]
  | _, _ => False

/-- The commands of the requests stand in the input one behind the other. -/
inductive Spelled : List Request → List Byte → Prop where
  | nil (rest : List Byte) : Spelled [] rest
  | cons {request : Request} {requests : List Request} {text rest : List Byte} (gap : List Byte)
      (spells : request.Spells text) (later : Spelled requests rest) :
      Spelled (request :: requests) (gap ++ (text ++ rest))

/-! ### Commands with a key -/

/-- `cleanup` is followed by no command with a key. -/
theorem gives_cleaned : Gives (cleanupWith Command.invalid) fun got => ¬ got.Keyed :=
  Server.gives_cleanupWith (by rintro (same | same) <;> cases same)

theorem reads_keywordWithBlank (rest : List Byte) (command : Command) :
    Reads NonNul (keywordWithBlank rest command) Command.Keyed fun got text =>
      got = command ∧ text = rest := by
  have word : Reads NonNul (keywordWithBlank rest command) Command.Keyed fun got text =>
      ∃ tail, (got = command ∧ tail = []) ∧ text = rest ++ tail := by
    refine reads_word ?_ fun tokens other => ?_
    · rw [if_pos rfl]
      exact reads_pure command
    · rw [if_neg other]
      exact gives_cleaned
  refine word.congr fun got text _ _ => ?_
  constructor
  · rintro ⟨_, ⟨same, rfl⟩, rfl⟩
    exact ⟨same, List.append_nil rest⟩
  · rintro ⟨same, rfl⟩
    exact ⟨[], ⟨same, rfl⟩, (List.append_nil _).symm⟩

/-- What stands behind the first character. -/
theorem reads_commandAfter (ch : Byte) :
    Reads NonNul (commandAfter ch) Command.Keyed fun got text => ch :: text = got.word := by
  have notKeyed : ∀ {command : Command}, command ≠ .subscribe → command ≠ .unsubscribe →
      ¬ command.Keyed := fun first second keyed => keyed.elim first second
  rw [commandAfter]
  split
  · rename_i isS
    refine (reads_keywordWithBlank _ _).congr fun got text keyed _ => ?_
    subst isS
    rcases keyed with rfl | rfl
    · exact ⟨fun same => by rw [same.2]; rfl, fun same => ⟨rfl, (List.cons.inj same).2⟩⟩
    · exact ⟨fun same => (by cases same.1), fun same => absurd (List.cons.inj same).1 (by decide)⟩
  split
  · rename_i isU
    refine (reads_keywordWithBlank _ _).congr fun got text keyed _ => ?_
    subst isU
    rcases keyed with rfl | rfl
    · exact ⟨fun same => (by cases same.1), fun same => absurd (List.cons.inj same).1 (by decide)⟩
    · exact ⟨fun same => by rw [same.2]; rfl, fun same => ⟨rfl, (List.cons.inj same).2⟩⟩
  rename_i notS notU
  have refuses : Gives (if ch = 'D'.toUInt8 then delayOrDisconnect
      else if ch = '#'.toUInt8 then cleanupWith .empty
      else if ch = newline then return .empty
      else cleanupWith .invalid : Parse Command) fun got => ¬ got.Keyed := by
    have empty : ¬ Command.Keyed .empty := notKeyed (by decide) (by decide)
    have delay : ¬ Command.Keyed .delay := notKeyed (by decide) (by decide)
    have disconnect : ¬ Command.Keyed .disconnect := notKeyed (by decide) (by decide)
    refine gives_ite ?_ <| gives_ite (Server.gives_cleanupWith empty) <|
      gives_ite (gives_pure empty) gives_cleaned
    exact gives_bind_any fun _ => gives_ite (gives_pure delay) <| gives_bind_any fun _ =>
      gives_ite (gives_bind_any fun _ => gives_ite (gives_pure disconnect) gives_cleaned)
        gives_cleaned
  refine (reads_refuse refuses).congr fun got text keyed _ => ⟨False.elim, fun same => ?_⟩
  rcases keyed with rfl | rfl
  · exact notS (List.cons.inj same).1
  · exact notU (List.cons.inj same).1

/-- **`get_next`** reads the word of a command with a key. -/
theorem reads_getNext :
    Reads NonNul getNext Command.Keyed fun got text => text = got.word := by
  have token : Reads NonNul getNext Command.Keyed fun got text =>
      ∃ ch tail, NonNul ch ∧ ch :: tail = got.word ∧ text = ch :: tail :=
    reads_token (fun ch _ => reads_commandAfter ch)
      (gives_pure (by rintro (same | same) <;> cases same))
  refine token.congr fun got text keyed clean => ?_
  constructor
  · rintro ⟨ch, tail, _, same, rfl⟩
    exact same
  · rintro rfl
    rcases keyed with rfl | rfl
    · exact ⟨_, _, clean _ List.mem_cons_self, rfl, rfl⟩
    · exact ⟨_, _, clean _ List.mem_cons_self, rfl, rfl⟩

/-- The argument of a command is a key in brackets. -/
theorem reads_keyArgument (request : CStr → Request) :
    Reads NonNul (keyArgument request) (·.key.isSome) fun got text =>
      ∃ key, got = request key ∧ IsItem key ∧ text = keysForm [key] := by
  have parts : Reads NonNul (keyArgument request) (·.key.isSome) fun got text =>
      ∃ keys head tail, keys ≠ [] ∧
        (keys.length ≤ 1 ∧ (∀ key ∈ keys, IsItem key) ∧ head = keysForm keys) ∧
        (∃ key, keys = [key] ∧ got = request key ∧ tail = []) ∧ text = head ++ tail := by
    refine reads_bind (reads_parseList 0) ?_ ?_
    · rintro keys head nonempty ⟨fits, _, _⟩ _
      obtain ⟨key, rfl⟩ := List.length_eq_one_iff.mp
        (le_antisymm fits (List.length_pos_iff.mpr nonempty))
      refine (reads_pure (request key)).congr fun got text _ _ => ?_
      simp
    · intro keys empty
      rw [not_not.mp empty]
      exact gives_pure Bool.false_ne_true
  refine parts.congr fun got text _ _ => ?_
  constructor
  · rintro ⟨_, head, tail, _, ⟨_, items, rfl⟩, ⟨key, rfl, rfl, rfl⟩, rfl⟩
    exact ⟨key, rfl, items key (List.mem_singleton_self key), List.append_nil _⟩
  · rintro ⟨key, rfl, item, rfl⟩
    exact ⟨[key], _, [], List.cons_ne_nil _ _,
      ⟨le_rfl, List.forall_mem_singleton.mpr item, rfl⟩, ⟨key, rfl, rfl, rfl⟩,
      (List.append_nil _).symm⟩

/-- A request with a key was read. -/
def AsksKey (got : Option Request) : Prop := ∃ request ∈ got, request.key.isSome

theorem not_asksKey_none : ¬ AsksKey none := by
  rintro ⟨_, member, _⟩
  cases member

theorem not_asksKey_some {request : Request} (silent : request.key = none) :
    ¬ AsksKey (some request) := by
  rintro ⟨_, member, keyed⟩
  rw [← Option.some.inj member, silent] at keyed
  cases keyed

/-- The arguments of a command with a key. -/
theorem reads_parseArguments (garbage : List Byte) {command : Command} (keyed : command.Keyed) :
    Reads NonNul (parseArguments garbage command) AsksKey fun got text =>
      ∃ key, got = some (command.asks key) ∧ IsItem key ∧ text = keysForm [key] := by
  have passed (make : CStr → Request) : Reads NonNul
      (do let request ← keyArgument make; return some request) AsksKey fun got text =>
        ∃ request head tail, request.key.isSome ∧
          (∃ key, request = make key ∧ IsItem key ∧ head = keysForm [key]) ∧
          (got = some request ∧ tail = []) ∧ text = head ++ tail := by
    refine reads_bind (reads_keyArgument make) (fun got _ _ _ _ => reads_pure (some got)) ?_
    intro got silent
    refine gives_pure (not_asksKey_some ?_)
    rwa [Option.isSome_iff_ne_none, ne_eq, not_not] at silent
  have named : ∀ key, (command.asks key).key = some key := fun key => by
    rcases keyed with rfl | rfl <;> rfl
  have same : parseArguments garbage command =
      (do let request ← keyArgument command.asks; return some request) := by
    rcases keyed with rfl | rfl <;> rfl
  rw [same]
  refine (passed command.asks).congr fun got text _ _ => ?_
  constructor
  · rintro ⟨_, _, _, _, ⟨key, rfl, item, rfl⟩, ⟨rfl, rfl⟩, rfl⟩
    exact ⟨key, rfl, item, List.append_nil _⟩
  · rintro ⟨key, rfl, item, rfl⟩
    exact ⟨_, _, [], by rw [named]; rfl, ⟨key, rfl, item, rfl⟩, ⟨rfl, rfl⟩,
      (List.append_nil _).symm⟩

/-- **A request with a key** is read exactly where its command stands. -/
theorem reads_nextRequest (garbage : List Byte) :
    Reads NonNul (nextRequest garbage) AsksKey fun got text =>
      ∃ request ∈ got, request.Spells text := by
  have parts : Reads NonNul (nextRequest garbage) AsksKey fun got text =>
      ∃ (command : Command) (head tail : List Byte), command.Keyed ∧ head = command.word ∧
        (∃ key, got = some (command.asks key) ∧ IsItem key ∧ tail = keysForm [key]) ∧
        text = head ++ tail := by
    refine reads_bind reads_getNext (fun command _ keyed _ _ => reads_parseArguments garbage keyed)
      fun command other => ?_
    cases command with
    | subscribe => exact absurd (.inl rfl) other
    | unsubscribe => exact absurd (.inr rfl) other
    | eoc => exact gives_pure not_asksKey_none
    | delay =>
      refine gives_bind_any fun delay => ?_
      cases delay with
      | none => exact gives_pure (not_asksKey_some rfl)
      | some ms => exact gives_pure (not_asksKey_some rfl)
    | _ => exact gives_pure (not_asksKey_some rfl)
  refine parts.congr fun got text asks _ => ?_
  constructor
  · rintro ⟨command, _, _, keyed, rfl, ⟨key, rfl, item, rfl⟩, rfl⟩
    rcases keyed with rfl | rfl
    · exact ⟨_, rfl, item, rfl⟩
    · exact ⟨_, rfl, item, rfl⟩
  · rintro ⟨request, member, spells⟩
    obtain ⟨_, same, keyed⟩ := asks
    obtain rfl := Option.some.inj (member.symm.trans same)
    cases request with
    | subscribe key =>
      exact ⟨.subscribe, _, _, .inl rfl, rfl, ⟨key, member, spells.1, rfl⟩, spells.2⟩
    | unsubscribe key =>
      exact ⟨.unsubscribe, _, _, .inr rfl, rfl, ⟨key, member, spells.1, rfl⟩, spells.2⟩
    | _ => cases keyed

/-! ### DISCONNECT -/

/-- Behind the first character of a DISCONNECT stands the rest of it. -/
theorem delayOrDisconnect_spells {input : List Byte}
    (disconnects : (delayOrDisconnect input).val = .disconnect) : ∃ text,
      Request.Spells .disconnect ('D'.toUInt8 :: text) ∧
        input = text ++ (delayOrDisconnect input).rest := by
  rw [delayOrDisconnect, read_bind_val] at disconnects
  rw [delayOrDisconnect, read_bind_rest]
  by_cases delay : input.take 5 = ascii ['E', 'L', 'A', 'Y', ' ']
  · rw [if_pos delay] at disconnects
    cases disconnects
  rw [if_neg delay, read_bind_val] at disconnects
  rw [if_neg delay, read_bind_rest]
  by_cases word : input.take 5 ++ (input.drop 5).take 4 =
      ascii ['I', 'S', 'C', 'O', 'N', 'N', 'E', 'C', 'T']
  swap
  · rw [if_neg word] at disconnects
    cases disconnects
  rw [if_pos word, read_bind_val] at disconnects
  rw [if_pos word, read_bind_rest]
  have split : input = ascii ['I', 'S', 'C', 'O', 'N', 'N', 'E', 'C', 'T'] ++
      ((input.drop 5).drop 4) := by
    rw [← word, List.append_assoc, List.take_append_drop, List.take_append_drop]
  by_cases ends : ((input.drop 5).drop 4).take 1 = [] ∨ ((input.drop 5).drop 4).take 1 = [newline]
  swap
  · rw [if_neg ends] at disconnects
    cases disconnects
  rw [if_pos ends]
  refine ⟨ascii ['I', 'S', 'C', 'O', 'N', 'N', 'E', 'C', 'T'] ++ ((input.drop 5).drop 4).take 1,
    ?_, ?_⟩
  · rcases ends with ends | ends
    · rw [ends]
      exact .inl rfl
    · rw [ends]
      exact .inr rfl
  · show input = _ ++ ((input.drop 5).drop 4).drop 1
    rw [List.append_assoc, List.take_append_drop]
    exact split

/-- Only its own word makes a DISCONNECT. -/
theorem commandAfter_disconnect {ch : Byte} {input : List Byte}
    (disconnects : (commandAfter ch input).val = .disconnect) :
    ch = 'D'.toUInt8 ∧ commandAfter ch = delayOrDisconnect := by
  have withBlank : ∀ (word : List Byte) (command : Command), command ≠ .disconnect →
      Gives (keywordWithBlank word command) (· ≠ .disconnect) := fun word command different =>
    gives_bind_any fun _ => gives_ite (gives_pure different)
      (Server.gives_cleanupWith (by decide))
  rw [commandAfter] at disconnects ⊢
  by_cases isS : ch = 'S'.toUInt8
  · rw [if_pos isS] at disconnects
    exact absurd disconnects (withBlank _ .subscribe (by decide) input)
  rw [if_neg isS] at disconnects ⊢
  by_cases isU : ch = 'U'.toUInt8
  · rw [if_pos isU] at disconnects
    exact absurd disconnects (withBlank _ .unsubscribe (by decide) input)
  rw [if_neg isU] at disconnects ⊢
  by_cases isD : ch = 'D'.toUInt8
  · exact ⟨isD, if_pos isD⟩
  have others : Gives (if ch = '#'.toUInt8 then cleanupWith .empty
      else if ch = newline then return .empty else cleanupWith .invalid : Parse Command)
      (· ≠ .disconnect) :=
    gives_ite (Server.gives_cleanupWith (by decide)) <| gives_ite (gives_pure (by decide))
      (Server.gives_cleanupWith (by decide))
  rw [if_neg isD] at disconnects
  exact absurd disconnects (others input)

/-- No arguments make a DISCONNECT of another command. -/
theorem parseArguments_disconnect (garbage : List Byte) {command : Command}
    (different : command ≠ .disconnect) :
    Gives (parseArguments garbage command) (· ≠ some .disconnect) := by
  have keyed : ∀ make : CStr → Request, (∀ key, make key ≠ .disconnect) →
      Gives (do let request ← keyArgument make; return some request) (· ≠ some .disconnect) := by
    intro make differs
    have argument : Gives (keyArgument make) (· ≠ .disconnect) := by
      refine gives_bind_any fun keys => ?_
      cases keys with
      | nil => exact gives_pure nofun
      | cons key keys => exact gives_pure (differs key)
    exact gives_bind argument fun request other => gives_pure fun same =>
      other (Option.some.inj same)
  cases command with
  | disconnect => exact absurd rfl different
  | subscribe => exact keyed .subscribe nofun
  | unsubscribe => exact keyed .unsubscribe nofun
  | delay =>
    refine gives_bind_any fun delay => ?_
    cases delay with
    | none => exact gives_pure nofun
    | some ms => exact gives_pure nofun
  | _ => exact gives_pure nofun

/-- **A DISCONNECT** is read only where its word stands. -/
theorem nextRequest_disconnect {garbage input : List Byte}
    (disconnects : (nextRequest garbage input).val = some .disconnect) : ∃ text,
      Request.Spells .disconnect text ∧ input = text ++ (nextRequest garbage input).rest := by
  cases input with
  | nil => cases disconnects
  | cons ch input =>
    rw [nextRequest_cons, requestAfter, bind_apply] at disconnects ⊢
    have command : (commandAfter ch input).val = .disconnect := by
      by_contra different
      exact parseArguments_disconnect garbage different _ disconnects
    obtain ⟨rfl, same⟩ := commandAfter_disconnect command
    rw [same] at command ⊢
    obtain ⟨text, spells, split⟩ := delayOrDisconnect_spells command
    refine ⟨'D'.toUInt8 :: text, spells, ?_⟩
    rw [command]
    exact congrArg ('D'.toUInt8 :: ·) split

/-! ### Whole inputs -/

/-- More input in front. -/
theorem Spelled.behind {requests : List Request} {input : List Byte}
    (spelled : Spelled requests input) (before : List Byte) :
    Spelled requests (before ++ input) := by
  cases spelled with
  | nil => exact .nil _
  | cons gap spells later =>
    rw [← List.append_assoc]
    exact .cons (before ++ gap) spells later

/-- **The client asks for nothing its input does not say.** On any input without a NUL the calls to
the server that `main` can come to stand in it as commands in full, one behind the other. -/
theorem requests_spelled (garbage input : List Byte) (clean : nul ∉ input) :
    Spelled ((requests garbage input).filter (·.Calls)) input := by
  induction bytes : input.length using Nat.strong_induction_on generalizing input with
  | _ size ih =>
    by_cases ended : input = []
    · rw [ended]
      exact .nil []
    obtain ⟨request, next, shorter⟩ := nextRequest_progress garbage ended
    rw [requests_step next rfl]
    obtain ⟨consumed, split⟩ := (regular_nextRequest garbage).suffix input
    have cleanRest : nul ∉ (nextRequest garbage input).rest := fun member =>
      clean (split ▸ List.mem_append_right _ member)
    have later := ih _ (bytes ▸ shorter) _ cleanRest rfl
    by_cases calls : request.Calls
    · rw [List.filter_cons_of_pos (by simpa using calls)]
      obtain ⟨text, spells, same⟩ : ∃ text, request.Spells text ∧
          input = text ++ (nextRequest garbage input).rest := by
        rcases calls with rfl | keyed
        · exact nextRequest_disconnect next
        · have bytesClean : ∀ byte ∈ input, NonNul byte := fun byte member isNul =>
            clean (isNul ▸ member)
          obtain ⟨text, ⟨_, member, spells⟩, same⟩ := (reads_nextRequest garbage input bytesClean _
            _ ⟨request, rfl, keyed⟩).mp ⟨next, rfl⟩
          cases member
          exact ⟨text, spells, same⟩
      have found := Spelled.cons [] spells later
      rwa [List.nil_append, ← same] at found
    · rw [List.filter_cons_of_neg (by simpa using calls)]
      have found := later.behind consumed
      rwa [split] at found

/-- `SUBSCRIBE [a b]`, a line that is no command, and `UNSUBSCRIBE [c]`. -/
def strayLine : List Byte :=
  ascii ['S', 'U', 'B', 'S', 'C', 'R', 'I', 'B', 'E', ' ', '[', 'a', ' ', 'b', ']', '\n', '?',
    '\n', 'U', 'N', 'S', 'U', 'B', 'S', 'C', 'R', 'I', 'B', 'E', ' ', '[', 'c', ']', '\n']

/-- The last line alone calls the server. -/
theorem requests_spelled_strayLine :
    Spelled [.unsubscribe ⟨ascii ['c'], by decide⟩] strayLine := by
  have spelled := requests_spelled [] strayLine (by decide)
  have calls : (requests [] strayLine).filter (·.Calls) =
      [.unsubscribe ⟨ascii ['c'], by decide⟩] := by decide
  rwa [calls] at spelled

end Kvs.Client
