/-
**Which lines of a job file keep to themselves.**

A file is isolated when `run_job` dispatches from it, line by line, what it dispatches from each
line alone, reports every malformed line and comes to the end of the file. The parser does not
isolate lines as such: `line_isolation` says that it does when every line is `Sound`, and that a
line that is not is misread alone or in front of itself.

* A line whose commands end on it (`Confined`) is not read past its end, so the frame rule of runs
  applies to it.
* A line that is not confined makes the parser read on. The command is then accepted with bytes of
  the next line in it, or it is reported and `cleanup` has swallowed the next line
  (`misread_of_unconfined`).
* A malformed line may be taken for a command: a `WAIT` without a number or with text behind it, or
  a list with a NUL in it (`Ending.taken`, `Ending.atNul`).
* A key without a bucket ends the run in an access outside the table.
-/

import Kvs.Job.Commands
import Kvs.Job.Lines
import Kvs.Job.Wait

namespace Kvs.Server

open Scanner (Scan Scanned)
open Scanner.Scan

/-! ### Errors resynchronise -/

/-- The scan read to the end of the file, or stopped behind a newline. -/
def Resynced {α : Type} (file : List Byte) (result : Scanned Byte α) : Prop :=
  result.hitEnd = true ∨ ∃ consumed, file = consumed ++ newline :: result.rest

/-- A scan that succeeds with one kind of value, or fails with another and has resynchronised. -/
def Resyncs {α : Type} (scan : Parse α) (good failed : α → Prop) : Prop :=
  ∀ file, good (scan file).val ∨ (failed (scan file).val ∧ Resynced file (scan file))

section Rules

variable {α β : Type} {first : Parse α} {second : α → Parse β} {good failed : β → Prop}

theorem resyncs_pure {value : β} (holds : good value) : Resyncs (pure value) good failed :=
  fun _ => Or.inl holds

theorem resyncs_of_gives {scan : Parse β} (gives : Gives scan good) : Resyncs scan good failed :=
  fun file => Or.inl (gives file)

theorem resyncs_cleanupWith {value : β} (holds : failed value) :
    Resyncs (cleanupWith value) good failed := by
  intro file
  refine Or.inr ⟨holds, ?_⟩
  induction file with
  | nil => exact Or.inl rfl
  | cons ch file ih =>
    rw [cleanupWith, bind_apply, cleanup]
    rw [cleanupWith, bind_apply] at ih
    split
    · rename_i isNewline
      exact Or.inr ⟨[], by rw [isNewline]; rfl⟩
    · rcases ih with hit | ⟨consumed, same⟩
      · exact Or.inl hit
      · exact Or.inr ⟨ch :: consumed, congrArg (ch :: ·) same⟩

/-- What happens before the last scan does not matter. -/
theorem resyncs_bind (regular : Regular first) (two : ∀ value, Resyncs (second value) good failed) :
    Resyncs (first >>= second) good failed := by
  intro file
  rw [bind_apply]
  rcases two (first file).val (first file).rest with success | ⟨failure, resynced⟩
  · exact Or.inl success
  · refine Or.inr ⟨failure, ?_⟩
    rcases resynced with hit | ⟨consumed, same⟩
    · exact Or.inl (by rw [hit]; exact Bool.or_true _)
    · obtain ⟨before, split⟩ := regular.suffix file
      exact Or.inr ⟨before ++ consumed, by rw [List.append_assoc, ← same, split]⟩

/-- A failure that is only passed on. -/
theorem resyncs_bind_failed {goodFirst failedFirst : α → Prop} (regular : Regular first)
    (one : Resyncs first goodFirst failedFirst)
    (passed : ∀ value, failedFirst value → ∃ result, second value = pure result ∧ failed result)
    (two : ∀ value, goodFirst value → Resyncs (second value) good failed) :
    Resyncs (first >>= second) good failed := by
  intro file
  rw [bind_apply]
  rcases one file with success | ⟨failure, resynced⟩
  · have later : Resyncs (first >>= fun _ => second (first file).val) good failed :=
      resyncs_bind regular fun _ => two _ success
    have here := later file
    rwa [bind_apply] at here
  · obtain ⟨result, same, holds⟩ := passed _ failure
    rw [same]
    refine Or.inr ⟨holds, ?_⟩
    rcases resynced with hit | stopped
    · exact Or.inl (by rw [hit]; rfl)
    · exact Or.inr stopped

theorem resyncs_ite {condition : Prop} [Decidable condition] {one two : Parse β}
    (first : Resyncs one good failed) (second : Resyncs two good failed) :
    Resyncs (if condition then one else two) good failed := by
  split
  · exact first
  · exact second

end Rules

/-- A loop that collected something. -/
def Collected {α : Type} (items : Option (List α)) : Prop := ∃ some, items = .some some ∧ some ≠ []

theorem collected_append {α : Type} (items : List α) (item : α) :
    Collected (some (items ++ [item])) :=
  ⟨_, rfl, List.append_ne_nil_of_right_ne_nil _ (List.cons_ne_nil _ _)⟩

theorem resyncs_parseWriteLoop (stringSize room : ℕ) :
    ∀ pairs, Collected (some pairs) ∨ room ≠ 0 →
      Resyncs (parseWriteLoop stringSize room pairs) Collected (· = none) := by
  induction room with
  | zero => exact fun pairs some => resyncs_pure (some.resolve_right fun zero => zero rfl)
  | succ room ih =>
    intro pairs _
    refine resyncs_bind (regular_parsePair stringSize) fun pair => ?_
    cases pair with
    | none => exact resyncs_cleanupWith rfl
    | some pair =>
      exact resyncs_bind (regular_copyRow _) fun _ => resyncs_bind (regular_copyRow _) fun _ =>
        resyncs_bind (regular_read 1) fun _ =>
          resyncs_ite (ih _ (Or.inl (collected_append _ _)))
            (resyncs_ite (resyncs_pure (collected_append _ _)) (resyncs_cleanupWith rfl))

theorem resyncs_parseKeysLoop (stringSize room : ℕ) :
    ∀ keys, Collected (some keys) ∨ room ≠ 0 →
      Resyncs (parseKeysLoop stringSize room keys) Collected (· = none) := by
  induction room with
  | zero => exact fun keys some => resyncs_pure (some.resolve_right fun zero => zero rfl)
  | succ room ih =>
    intro keys _
    exact resyncs_bind (regular_readString _ _) fun _ => resyncs_ite (resyncs_cleanupWith rfl)
      (resyncs_bind (regular_copyRow _) fun _ => resyncs_ite (resyncs_pure (collected_append _ _))
        (ih _ (Or.inl (collected_append _ _))))

theorem resyncs_afterLoop {α : Type} {max : ℕ} {loop : Parse (Option (List α))}
    (regular : Regular loop) (collects : Resyncs loop Collected (· = none)) :
    Resyncs (loop >>= afterLoop max) (· ≠ []) (· = []) := by
  refine resyncs_bind_failed regular collects (fun _ none => ⟨[], by rw [none]; rfl, rfl⟩) ?_
  rintro _ ⟨items, rfl, nonempty⟩
  exact resyncs_ite (resyncs_cleanupWith rfl) (resyncs_bind (regular_read 1) fun _ =>
    resyncs_ite (resyncs_pure nonempty) (resyncs_cleanupWith rfl))

theorem resyncs_parseWrite : Resyncs (parseWrite maxWriteSize maxStringSize) (· ≠ []) (· = []) :=
  resyncs_bind (regular_read 1) fun _ => resyncs_ite (resyncs_cleanupWith rfl) <|
    resyncs_bind (regular_read 1) fun _ => resyncs_ite (resyncs_cleanupWith rfl) <|
    resyncs_afterLoop (regular_parseWriteLoop _ _ _)
      (resyncs_parseWriteLoop _ _ _ (Or.inr (by decide)))

theorem resyncs_parseReadDelete :
    Resyncs (parseReadDelete maxWriteSize maxStringSize) (· ≠ []) (· = []) :=
  resyncs_bind (regular_read 1) fun _ => resyncs_ite (resyncs_cleanupWith rfl) <|
    resyncs_afterLoop (regular_parseKeysLoop _ _ _)
      (resyncs_parseKeysLoop _ _ _ (Or.inr (by decide)))

theorem resyncs_parseWait (garbage : List Byte) :
    Resyncs (parseWait garbage false) (·.code ≠ -1) (·.code = -1) := by
  refine resyncs_bind (regular_readUint garbage) fun number => ?_
  obtain ⟨delay, ch⟩ := number
  cases delay with
  | none => exact resyncs_cleanupWith rfl
  | some delay =>
    have zero : ∀ {delay threadId}, (WaitResult.mk 0 delay threadId).code ≠ -1 := by simp
    have one : ∀ {delay threadId}, (WaitResult.mk 1 delay threadId).code ≠ -1 := by simp
    refine resyncs_ite ?_ (resyncs_ite (resyncs_pure zero) (resyncs_cleanupWith rfl))
    exact resyncs_ite (resyncs_of_gives (gives_bind_any fun _ => gives_pure zero))
      (resyncs_bind (regular_readUint garbage) fun _ =>
        resyncs_ite (resyncs_cleanupWith rfl) (resyncs_pure one))

/-- A command that dispatches something. -/
def Command.Dispatches : Command → Prop
  | .write | .read | .delete | .show | .wait | .backup | .help => True
  | .empty | .invalid | .eoc => False

/-- A line that starts otherwise than a comment, and is not empty. -/
theorem resyncs_commandAfter {ch : Byte} (notComment : ch ≠ '#'.toUInt8) (notEmpty : ch ≠ newline) :
    Resyncs (commandAfter ch) Command.Dispatches (· = .invalid) := by
  have withBlank : ∀ (keyword : List Byte) {command : Command}, command.Dispatches →
      Resyncs (keywordWithBlank keyword command) Command.Dispatches (· = .invalid) :=
    fun _ _ dispatches => resyncs_bind (regular_read _) fun _ =>
      resyncs_ite (resyncs_pure dispatches) (resyncs_cleanupWith rfl)
  have alone : ∀ (keyword : List Byte) {command : Command}, command.Dispatches →
      Resyncs (keywordAlone keyword command) Command.Dispatches (· = .invalid) :=
    fun _ _ dispatches => resyncs_bind (regular_read _) fun _ => resyncs_ite
      (resyncs_bind (regular_read _) fun _ =>
        resyncs_ite (resyncs_pure dispatches) (resyncs_cleanupWith rfl))
      (resyncs_cleanupWith rfl)
  have wait : Resyncs waitOrWrite Command.Dispatches (· = .invalid) :=
    resyncs_bind (regular_read _) fun _ => resyncs_ite (resyncs_pure trivial)
      (resyncs_bind (regular_read _) fun _ =>
        resyncs_ite (resyncs_pure trivial) (resyncs_cleanupWith rfl))
  rw [commandAfter, if_neg notComment, if_neg notEmpty]
  exact resyncs_ite wait <| resyncs_ite (withBlank _ trivial) <|
    resyncs_ite (withBlank _ trivial) <| resyncs_ite (alone _ trivial) <|
    resyncs_ite (alone _ trivial) <| resyncs_ite (alone _ trivial) (resyncs_cleanupWith rfl)

/-- A command was accepted. -/
def Accepted (value : Option (Option Dispatch)) : Prop :=
  ∃ dispatch, value = some (some dispatch) ∧ dispatch ≠ .invalid

theorem resyncs_parseArguments (garbage : List Byte) {command : Command}
    (dispatches : command.Dispatches) :
    Resyncs (parseArguments garbage command) Accepted Reported := by
  -- the arguments, and the dispatch made of them
  have listed : ∀ {α : Type} {parse : Parse (List α)} (dispatch : List α → Dispatch),
      Regular parse → Resyncs parse (· ≠ []) (· = []) → (∀ items, dispatch items ≠ .invalid) →
      Resyncs (parse >>= fun items => pure (some (some (if items = [] then .invalid
        else dispatch items)))) Accepted Reported := by
    intro α parse dispatch regular parses valid
    refine resyncs_bind_failed regular parses (fun items nothing => ⟨_, rfl, ?_⟩)
      fun items some => ?_
    · rw [if_pos nothing]
    · exact resyncs_pure ⟨dispatch items, by rw [if_neg some], valid items⟩
  cases command with
  | write => exact listed .write (regular_parseWrite _ _) resyncs_parseWrite (by simp)
  | read => exact listed .read (regular_parseReadDelete _ _) resyncs_parseReadDelete (by simp)
  | delete => exact listed .delete (regular_parseReadDelete _ _) resyncs_parseReadDelete (by simp)
  | wait =>
    refine resyncs_bind_failed (regular_parseWait _ _) (resyncs_parseWait garbage)
      (fun result failed => ⟨_, rfl, ?_⟩) fun result valid => ?_
    · rw [if_pos failed]
    · exact resyncs_pure ⟨_, by rw [if_neg valid], by simp⟩
  | «show» => exact resyncs_pure ⟨.show, rfl, by simp⟩
  | backup => exact resyncs_pure ⟨.backup, rfl, by simp⟩
  | help => exact resyncs_pure ⟨.help, rfl, by simp⟩
  | _ => exact dispatches.elim

/-- **A command is accepted, or it is reported and the parser stands behind a newline.** -/
theorem resyncs_dispatchAfter (garbage : List Byte) {ch : Byte} (notComment : ch ≠ '#'.toUInt8)
    (notEmpty : ch ≠ newline) : Resyncs (dispatchAfter garbage ch) Accepted Reported :=
  resyncs_bind_failed (regular_commandAfter ch) (resyncs_commandAfter notComment notEmpty)
    (fun _ invalid => ⟨_, by rw [invalid]; rfl, rfl⟩)
    fun _ dispatches => resyncs_parseArguments garbage dispatches

/-! ### One line -/

/-- A line of a job file, without its newline. -/
structure Line where
  text : List Byte
  oneLine : newline ∉ text
deriving DecidableEq

/-- A file made of lines. -/
def fileOf (lines : List Line) : List Byte := lines.flatMap fun line => line.text ++ [newline]

/-- What is left of a line behind a NUL is part of it. -/
theorem commandEnd_atNul {text left : List Byte} (oneLine : newline ∉ text)
    (ends : commandEnd text = some (.atNul left)) : left.length < text.length ∧ newline ∉ left := by
  have command := nextDispatch_ends [] oneLine
  rw [ends] at command
  obtain ⟨_, _, step⟩ := jobStep_of_ne_nil []
    (List.append_ne_nil_of_right_ne_nil text (List.cons_ne_nil newline []))
  have shorter := jobStep_shorter step
  cases text with
  | nil => cases ends
  | cons ch text =>
    obtain ⟨consumed, same⟩ := nextDispatch_suffix [] ch (text ++ [newline])
    rw [List.cons_append] at command
    rw [command.1, Ending.left, ← List.append_assoc] at same
    have whole := List.append_cancel_right same
    constructor
    · rw [← whole, List.length_cons, List.length_append]
      omega
    · exact fun member => oneLine (by rw [← whole]; simp [member])

/-- The first iteration on a line all of whose commands up to a NUL end on it. -/
theorem jobTrace_ends (garbage : List Byte) {text : List Byte} {ending : Ending}
    (oneLine : newline ∉ text) (ends : commandEnd text = some ending) :
    ∃ trace, trace.overran = false ∧ trace.overflow = false ∧
      jobStep garbage (text ++ [newline]) = some (trace, ending.left) := by
  obtain ⟨dispatched, _, step⟩ := jobStep_of_ne_nil garbage
    (List.append_ne_nil_of_right_ne_nil text (List.cons_ne_nil newline []))
  have command := nextDispatch_ends garbage oneLine
  rw [ends] at command
  obtain ⟨rest, full, fits, _⟩ := command
  rw [rest] at step
  exact ⟨_, full, fits, step⟩

/-- **A confined line** is not read past its end, and overruns no buffer. -/
theorem jobTrace_confined (garbage : List Byte) {text : List Byte} (confined : Confined text)
    (oneLine : newline ∉ text) :
    (jobTrace garbage (text ++ [newline])).overran = false ∧
      (jobTrace garbage (text ++ [newline])).overflow = false := by
  induction confined with
  | taken ends | refused ends =>
    obtain ⟨trace, full, fits, step⟩ := jobTrace_ends garbage oneLine ends
    rw [jobTrace_step step]
    exact ⟨Bool.or_eq_false_iff.mpr ⟨full, rfl⟩, Bool.or_eq_false_iff.mpr ⟨fits, rfl⟩⟩
  | atNul ends _ ih =>
    obtain ⟨trace, full, fits, step⟩ := jobTrace_ends garbage oneLine ends
    obtain ⟨laterFull, laterFits⟩ := ih (commandEnd_atNul oneLine ends).2
    rw [jobTrace_step step]
    exact ⟨Bool.or_eq_false_iff.mpr ⟨full, laterFull⟩, Bool.or_eq_false_iff.mpr ⟨fits, laterFits⟩⟩

/-! ### Two lines -/

/-- The newlines behind a first line. -/
theorem split_newline {first rest consumed left : List Byte} (firstLine : newline ∉ first)
    (same : first ++ newline :: rest = consumed ++ newline :: left) :
    left = rest ∨ ∃ later, rest = later ++ newline :: left := by
  induction first generalizing consumed with
  | nil =>
    cases consumed with
    | nil => exact Or.inl (List.cons.inj same).2.symm
    | cons ch consumed => exact Or.inr ⟨consumed, (List.cons.inj same).2⟩
  | cons ch first ih =>
    cases consumed with
    | nil => exact absurd (List.cons.inj same).1 fun isNewline => firstLine (by simp [isNewline])
    | cons _ consumed =>
      exact ih (fun member => firstLine (List.mem_cons_of_mem _ member)) (List.cons.inj same).2

/-- A scan that reads past a line and then resynchronises has swallowed the next one. -/
theorem resynced_twoLines {α : Type} {scan : Parse α} (regular : Regular scan)
    {first second : List Byte} (firstLine : newline ∉ first) (secondLine : newline ∉ second)
    (hit : (scan (first ++ [newline])).hitEnd = true)
    (resynced : Resynced (first ++ [newline] ++ (second ++ [newline]))
      (scan (first ++ [newline] ++ (second ++ [newline])))) :
    (scan (first ++ [newline] ++ (second ++ [newline]))).rest = [] := by
  cases ended : (scan (first ++ [newline] ++ (second ++ [newline]))).hitEnd with
  | true => exact regular.drained _ ended
  | false =>
    obtain ⟨consumed, same⟩ := resynced.resolve_left (by rw [ended]; exact Bool.false_ne_true)
    have split : first ++ newline :: (second ++ [newline]) = consumed ++ newline :: _ :=
      (List.append_assoc first [newline] _).symm.trans same
    rcases split_newline firstLine split with atFirst | ⟨later, behind⟩
    · -- it would have stopped on the first line
      rw [regular.unframe _ _ [] ended atFirst] at hit
      cases hit
    · rcases split_newline secondLine behind with atSecond | ⟨_, nothing⟩
      · exact atSecond
      · exact absurd nothing.symm (List.append_ne_nil_of_right_ne_nil _ (List.cons_ne_nil _ _))

/-- A line whose first command does not end on it is neither a comment nor empty. -/
theorem commandEnd_eq_none {ch : Byte} {text : List Byte} (ends : commandEnd (ch :: text) = none) :
    ch ≠ '#'.toUInt8 := by
  rintro rfl
  revert ends
  rw [commandEnd]
  simp only [show ¬ '#'.toUInt8 = 'W'.toUInt8 by decide, show ¬ '#'.toUInt8 = 'R'.toUInt8 by decide,
    show ¬ '#'.toUInt8 = 'D'.toUInt8 by decide, show ¬ '#'.toUInt8 = 'S'.toUInt8 by decide,
    show ¬ '#'.toUInt8 = 'B'.toUInt8 by decide, show ¬ '#'.toUInt8 = 'H'.toUInt8 by decide,
      if_false]
  exact fun ends => by cases ends

/-- What becomes of a command that does not end on its line. -/
structure Misread (garbage first second : List Byte) (earlier : List Dispatch) (dispatch : Dispatch)
    (more : List Dispatch) : Prop where
  /-- Alone it is reported. -/
  alone : (jobTrace garbage (first ++ [newline])).dispatched = earlier ++ [.invalid]
  both : (jobTrace garbage (first ++ [newline] ++ (second ++ [newline]))).dispatched =
    earlier ++ dispatch :: more
  /-- Reported again, it has swallowed the next line. -/
  swallowed : dispatch = .invalid → more = []

/-- The command a line starts with does not end on it. -/
theorem misread_command (garbage : List Byte) {first second : List Byte}
    (firstLine : newline ∉ first) (secondLine : newline ∉ second) (ends : commandEnd first = none) :
    (jobTrace garbage (first ++ [newline])).overflow = true ∨
      ∃ dispatch more, Misread garbage first second [] dispatch more := by
  cases first with
  | nil => cases ends
  | cons ch text =>
    have notEmpty : ch ≠ newline := fun same => firstLine (by simp [same])
    have textLine : newline ∉ text := fun member => firstLine (List.mem_cons_of_mem _ member)
    have command := nextDispatch_ends garbage firstLine
    rw [ends] at command
    obtain ⟨dispatched, given, step⟩ := jobStep_of_ne_nil garbage
      (List.cons_ne_nil ch (text ++ [newline]))
    obtain ⟨dispatchedTwo, givenTwo, stepTwo⟩ := jobStep_of_ne_nil garbage
      (List.cons_ne_nil ch (text ++ [newline] ++ (second ++ [newline])))
    have alone : jobTrace garbage (ch :: text ++ [newline]) = _ := jobTrace_step step
    have both : jobTrace garbage (ch :: text ++ [newline] ++ (second ++ [newline])) = _ :=
      jobTrace_step stepTwo
    rcases command with overflow | ⟨hit, reported⟩
    · exact Or.inl (by rw [alone]; exact Bool.or_eq_true_iff.mpr (Or.inl overflow))
    rw [List.cons_append, nextDispatch_cons] at hit reported
    have aloneDispatched :
        (jobTrace garbage (ch :: text ++ [newline])).dispatched = [.invalid] := by
      rw [nextDispatch_cons, reported] at given
      cases given
      rw [alone, nextDispatch_cons, (regular_dispatchAfter garbage ch).drained _ hit]
      rfl
    rw [nextDispatch_cons] at both givenTwo
    refine Or.inr ?_
    rcases resyncs_dispatchAfter garbage (commandEnd_eq_none ends) notEmpty
        (text ++ [newline] ++ (second ++ [newline])) with
      ⟨dispatch, accepted, valid⟩ | ⟨reportedTwo, resynced⟩
    · cases accepted.symm.trans givenTwo
      exact ⟨dispatch, _, aloneDispatched, by rw [both]; rfl, fun invalid => absurd invalid valid⟩
    · cases reportedTwo.symm.trans givenTwo
      have nothing := resynced_twoLines (regular_dispatchAfter garbage ch) textLine secondLine hit
        resynced
      exact ⟨.invalid, [], aloneDispatched, by rw [both, nothing]; rfl, fun _ => rfl⟩

/-- **A line that is not confined** overruns a buffer, or it is misread in front of any line. -/
theorem misread_of_unconfined (garbage : List Byte) {first second : List Byte}
    (firstLine : newline ∉ first) (secondLine : newline ∉ second) (unconfined : ¬ Confined first) :
    (jobTrace garbage (first ++ [newline])).overflow = true ∨
      ∃ earlier dispatch more, Misread garbage first second earlier dispatch more := by
  induction size : first.length using Nat.strong_induction_on generalizing first with
  | _ size ih =>
    cases ends : commandEnd first with
    | none =>
      exact (misread_command garbage firstLine secondLine ends).imp_right fun misread =>
        ⟨[], misread⟩
    | some ending =>
      obtain ⟨trace, full, fits, step⟩ := jobTrace_ends garbage firstLine ends
      have stepTwo := jobStep_append step full (second ++ [newline])
      cases ending with
      | taken => exact absurd (.taken ends) unconfined
      | refused => exact absurd (.refused ends) unconfined
      | atNul left =>
        obtain ⟨shorter, leftLine⟩ := commandEnd_atNul firstLine ends
        have leftUnconfined : ¬ Confined left := fun confined => unconfined (.atNul ends confined)
        rcases ih left.length (size ▸ shorter) leftLine leftUnconfined rfl with overflow |
          ⟨earlier, dispatch, more, misread⟩
        · rw [jobTrace_step step]
          exact Or.inl (Bool.or_eq_true_iff.mpr (Or.inr overflow))
        · refine Or.inr ⟨trace.dispatched ++ earlier, dispatch, more, ?_, ?_, misread.swallowed⟩
          · rw [jobTrace_step step, List.append_assoc, ← misread.alone]
            rfl
          · rw [jobTrace_step stepTwo, List.append_assoc, ← misread.both]
            rfl

/-! ### What a line is dispatched as -/

/-- A line as the format has it: a command, a comment or nothing, or a `WAIT` whose number has
leading zeros. Any other line is malformed. -/
def Line.Legal (line : Line) : Prop :=
  (∃ command : JobCommand, line.text = command.line) ∨
    ∃ digits : Digits, line.text = ascii ['W', 'A', 'I', 'T', ' '] ++ digits.bytes

/-- A command of the format is dispatched from its line. -/
theorem jobTrace_command (garbage : List Byte) (command : JobCommand) :
    jobTrace garbage (command.line ++ [newline]) = ⟨command.dispatch.toList, false, false⟩ := by
  have read := nextDispatch_text garbage command []
  rw [List.append_nil] at read
  have step : jobStep garbage (command.line ++ [newline]) =
      some (⟨command.dispatch.toList, false, false⟩, []) := by
    rw [jobStep, ← JobCommand.text, read]
    rfl
  rw [jobTrace_step step]
  show Trace.mk (command.dispatch.toList ++ []) false false = _
  rw [List.append_nil]

theorem commandEnd_wait (digits : Digits) :
    commandEnd (ascii ['W', 'A', 'I', 'T', ' '] ++ digits.bytes) = waitEnd digits.bytes := by
  show commandEnd ('W'.toUInt8 :: (ascii ['A', 'I', 'T', ' '] ++ digits.bytes)) = _
  rw [commandEnd, if_pos rfl, if_pos (by rfl)]
  rfl

/-- A confined `WAIT` of digits is taken. -/
theorem commandEnd_digits {text : List Byte} {digits : Digits} (confined : Confined text)
    (same : text = ascii ['W', 'A', 'I', 'T', ' '] ++ digits.bytes) :
    commandEnd text = some .taken := by
  have ends : commandEnd text =
      if uintBufferSize ≤ digits.bytes.length then none
      else if digitsValue digits.bytes ≤ uintMax then some .taken else none := by
    rw [same, commandEnd_wait, waitEnd, List.takeWhile_eq_self_iff.mpr digits.areDigits,
      List.dropWhile_eq_nil_iff.mpr digits.areDigits]
  cases confined with
  | taken given => exact given
  | refused given =>
    rw [ends] at given
    split_ifs at given
    cases given
  | atNul given _ =>
    rw [ends] at given
    split_ifs at given
    cases given

/-- A `WAIT` names no key. -/
theorem wait_placed (garbage : List Byte) :
    Gives (parseArguments garbage .wait) fun value =>
      ∀ dispatch ∈ value.bind id, dispatch.Placed := by
  refine gives_bind_any fun result => gives_pure ?_
  rintro dispatch member
  cases (show some (if result.code = -1 then Dispatch.invalid
    else .wait (result.delay.getD 0)) = some dispatch from member)
  split
  · exact fun _ named => absurd named List.not_mem_nil
  · exact fun _ named => absurd named List.not_mem_nil

/-- A line that is taken for a command is dispatched as a valid one first. -/
theorem dispatched_of_taken (garbage : List Byte) {ch : Byte} {text : List Byte} {ending : Ending}
    (notComment : ch ≠ '#'.toUInt8) (oneLine : newline ∉ ch :: text)
    (ends : commandEnd (ch :: text) = some ending) (valid : ending ≠ .refused) :
    ∃ dispatch later, dispatch ≠ .invalid ∧
      (jobTrace garbage (ch :: text ++ [newline])).dispatched = dispatch :: later := by
  have notEmpty : ch ≠ newline := fun same => oneLine (by simp [same])
  have command := nextDispatch_ends garbage oneLine
  rw [ends] at command
  have unreported := mt command.2.2.2.mp valid
  rw [List.cons_append, nextDispatch_cons] at unreported
  obtain ⟨dispatched, given, step⟩ := jobStep_of_ne_nil garbage
    (List.cons_ne_nil ch (text ++ [newline]))
  rw [nextDispatch_cons] at given
  rcases resyncs_dispatchAfter garbage notComment notEmpty (text ++ [newline]) with
    ⟨dispatch, accepted, good⟩ | ⟨reported, _⟩
  · cases accepted.symm.trans given
    rw [List.cons_append, jobTrace_step step]
    exact ⟨dispatch, _, good, rfl⟩
  · exact absurd reported unreported

/-- A line that is refused is reported, and nothing else. -/
theorem dispatched_of_refused (garbage : List Byte) {text : List Byte} (oneLine : newline ∉ text)
    (ends : commandEnd text = some .refused) :
    (jobTrace garbage (text ++ [newline])).dispatched = [.invalid] := by
  have command := nextDispatch_ends garbage oneLine
  rw [ends] at command
  obtain ⟨rest, _, _, reported⟩ := command
  obtain ⟨dispatched, given, step⟩ := jobStep_of_ne_nil garbage
    (List.append_ne_nil_of_right_ne_nil text (List.cons_ne_nil newline []))
  cases given.symm.trans (reported.mpr rfl)
  rw [jobTrace_step step, rest]
  rfl

/-! ### Sound lines -/

/-- A line that keeps to itself, whatever follows it. -/
structure Line.Sound (line : Line) : Prop where
  /-- Every command on it ends on it. -/
  confined : Confined line.text
  /-- Every key of its command has a bucket. -/
  placed : ∀ command : JobCommand, line.text = command.line →
    ∀ dispatch ∈ command.dispatch, dispatch.Placed
  /-- Malformed, it is refused. -/
  refused : ¬ line.Legal → commandEnd line.text = some .refused

/-- Every key dispatched from a sound line has a bucket. -/
theorem Line.Sound.dispatched {line : Line} (sound : line.Sound) (garbage : List Byte) :
    ∀ dispatch ∈ (jobTrace garbage (line.text ++ [newline])).dispatched, dispatch.Placed := by
  by_cases legal : line.Legal
  · rcases legal with ⟨command, same⟩ | ⟨digits, same⟩
    · rw [same, jobTrace_command]
      exact fun dispatch member => sound.placed command same dispatch (by simpa using member)
    · -- the one command of a `WAIT` of digits
      have step := jobStep_of_ne_nil garbage
        (List.append_ne_nil_of_right_ne_nil line.text (List.cons_ne_nil newline []))
      obtain ⟨dispatched, given, step⟩ := step
      have named : ∀ dispatch ∈ dispatched, dispatch.Placed := by
        have waits := wait_placed garbage (digits.bytes ++ [newline])
        rw [same, show ascii ['W', 'A', 'I', 'T', ' '] ++ digits.bytes ++ [newline] =
            'W'.toUInt8 :: (ascii ['A', 'I', 'T', ' '] ++ (digits.bytes ++ [newline])) from rfl,
          nextDispatch_cons, dispatchAfter, commandAfter, if_pos rfl,
          bind_of_clean (waitOrWrite_wait _)] at given
        rw [given] at waits
        exact waits
      have left : (nextDispatch garbage (line.text ++ [newline])).rest = [] := by
        have ends := commandEnd_digits sound.confined same
        have command := nextDispatch_ends garbage line.oneLine
        rw [ends] at command
        exact command.1
      rw [jobTrace_step step, left]
      intro dispatch member
      have nothing : (jobTrace garbage []).dispatched = [] := rfl
      exact named dispatch (by simpa [Trace.append, nothing] using member)
  · rw [dispatched_of_refused garbage line.oneLine (sound.refused legal)]
    intro dispatch member
    rw [List.mem_singleton.mp member]
    exact fun _ named => absurd named List.not_mem_nil

/-! ### Whole files -/

theorem fileOf_singleton (line : Line) : fileOf [line] = line.text ++ [newline] :=
  List.flatMap_singleton _ _

theorem fileOf_cons (line : Line) (lines : List Line) :
    fileOf (line :: lines) = line.text ++ [newline] ++ fileOf lines :=
  List.flatMap_cons

/-- What `run_job` dispatches from a file. -/
def dispatchedFrom (around : Surroundings) (garbage file : List Byte) (job : JobState) :
    List Dispatch :=
  ((runJobNoted around garbage (file.length + 1) file job).map Prod.fst).getD []

/-- **Line isolation**: `run_job` comes to the end of the file, what it has dispatched is what it
dispatches from the lines, each alone in a file, and a malformed line is reported as invalid. -/
structure Isolated (around : Surroundings) (garbage : List Byte) (lines : List Line)
    (job : JobState) : Prop where
  concatenated : ∃ final,
    runJobNoted around garbage ((fileOf lines).length + 1) (fileOf lines) job =
      some (lines.flatMap fun line => dispatchedFrom around garbage (fileOf [line]) job, .ok final)
  reported : ∀ line ∈ lines, ¬ line.Legal →
    dispatchedFrom around garbage (fileOf [line]) job = [.invalid]

section Files

variable {around : Surroundings} {garbage : List Byte} {job : JobState} {lines : List Line}
  {line : Line}

/-- A run that ends well has dispatched the trace. -/
theorem dispatchedFrom_eq {file : List Byte} (fits : (jobTrace garbage file).overflow = false)
    (placed : ∀ dispatch ∈ (jobTrace garbage file).dispatched, dispatch.Placed) :
    dispatchedFrom around garbage file job = (jobTrace garbage file).dispatched := by
  rw [dispatchedFrom, runJobNoted_eq (dispatchLoop_jobTrace garbage file) fits, served_eq placed]
  rfl

/-- A sound line alone. -/
theorem Line.Sound.dispatchedFrom (sound : line.Sound) :
    dispatchedFrom around garbage (fileOf [line]) job =
      (jobTrace garbage (line.text ++ [newline])).dispatched := by
  have confined := jobTrace_confined garbage sound.confined line.oneLine
  rw [fileOf_singleton]
  exact dispatchedFrom_eq confined.2 (sound.dispatched garbage)

/-- The trace of a file of sound lines. -/
theorem jobTrace_sound (garbage : List Byte) (sound : ∀ line ∈ lines, line.Sound) :
    (jobTrace garbage (fileOf lines)).overflow = false ∧
      (jobTrace garbage (fileOf lines)).dispatched =
        lines.flatMap fun line => (jobTrace garbage (line.text ++ [newline])).dispatched := by
  induction lines with
  | nil => exact ⟨rfl, rfl⟩
  | cons line lines ih =>
    obtain ⟨here, later⟩ := List.forall_mem_cons.mp sound
    obtain ⟨full, fits⟩ := jobTrace_confined garbage here.confined line.oneLine
    obtain ⟨laterFits, dispatched⟩ := ih later
    rw [fileOf_cons, jobTrace_append full, List.flatMap_cons, ← dispatched]
    exact ⟨Bool.or_eq_false_iff.mpr ⟨fits, laterFits⟩, rfl⟩

/-- **A file of sound lines** is isolated. -/
theorem isolated_of_sound (around : Surroundings) (garbage : List Byte) (job : JobState)
    (sound : ∀ line ∈ lines, line.Sound) : Isolated around garbage lines job := by
  obtain ⟨fits, dispatched⟩ := jobTrace_sound garbage sound
  have alone : lines.flatMap (fun line => dispatchedFrom around garbage (fileOf [line]) job) =
      lines.flatMap fun line => (jobTrace garbage (line.text ++ [newline])).dispatched :=
    List.flatMap_congr fun line member => (sound line member).dispatchedFrom
  refine ⟨(runJobNoted_ok_iff around garbage _ _ job).mpr ⟨fits, dispatched.trans alone.symm, ?_⟩,
    fun line member malformed => ?_⟩
  · rw [alone]
    intro dispatch member
    obtain ⟨line, among, named⟩ := List.mem_flatMap.mp member
    exact (sound line among).dispatched garbage dispatch named
  · rw [(sound line member).dispatchedFrom]
    exact dispatched_of_refused garbage line.oneLine ((sound line member).refused malformed)

/-- A line that is isolated alone overruns nothing, and its keys have buckets. -/
theorem Isolated.alone (isolated : Isolated around garbage [line] job) :
    (jobTrace garbage (line.text ++ [newline])).overflow = false ∧
      (∀ dispatch ∈ (jobTrace garbage (line.text ++ [newline])).dispatched, dispatch.Placed) ∧
      dispatchedFrom around garbage (fileOf [line]) job =
        (jobTrace garbage (line.text ++ [newline])).dispatched := by
  obtain ⟨fits, dispatched, placed⟩ :=
    (runJobNoted_ok_iff around garbage _ _ job).mp isolated.concatenated
  rw [← dispatched, fileOf_singleton] at placed
  rw [fileOf_singleton] at fits
  refine ⟨fits, placed, ?_⟩
  rw [fileOf_singleton]
  exact dispatchedFrom_eq fits placed

/-- **A line that is not sound** is misread alone, or in front of itself. -/
theorem sound_of_isolated (once : Isolated around garbage [line] job)
    (twice : Isolated around garbage [line, line] job) : line.Sound := by
  obtain ⟨fits, placed, alone⟩ := once.alone
  have confined : Confined line.text := by
    by_contra unconfined
    obtain ⟨_, both, _⟩ := (runJobNoted_ok_iff around garbage _ _ job).mp twice.concatenated
    rcases misread_of_unconfined garbage line.oneLine line.oneLine unconfined with overflow |
      ⟨earlier, dispatch, more, misread⟩
    · rw [fits] at overflow
      cases overflow
    · rw [fileOf_cons, fileOf_singleton, misread.both, List.flatMap_cons, List.flatMap_singleton,
        alone, misread.alone, List.append_assoc, List.append_cancel_left_eq,
        List.singleton_append, List.cons.injEq] at both
      rw [misread.swallowed both.1] at both
      exact List.append_ne_nil_of_right_ne_nil _ (List.cons_ne_nil _ _) both.2.symm
  refine ⟨confined, fun command same dispatch member => ?_, fun malformed => ?_⟩
  · rw [same, jobTrace_command] at placed
    exact placed dispatch (by simpa using member)
  · have reported := once.reported line (List.mem_singleton_self line) malformed
    rw [alone] at reported
    -- a malformed line is no comment, and has a first character
    obtain ⟨text, oneLine⟩ := line
    cases text with
    | nil => exact absurd (.inl ⟨.emptyLine, rfl⟩) malformed
    | cons ch text =>
      have notComment : ch ≠ '#'.toUInt8 := by
        rintro rfl
        exact malformed (.inl ⟨.comment text fun member =>
          oneLine (List.mem_cons_of_mem _ member), rfl⟩)
      have taken : ∀ ending, commandEnd (ch :: text) = some ending → ending = .refused := by
        intro ending ends
        by_contra valid
        obtain ⟨dispatch, later, good, dispatched⟩ :=
          dispatched_of_taken garbage notComment oneLine ends valid
        exact good (List.cons.inj (dispatched.symm.trans reported)).1
      cases confined with
      | taken ends => exact ends.trans (congrArg some (taken _ ends))
      | refused ends => exact ends
      | atNul ends _ => exact ends.trans (congrArg some (taken _ ends))

end Files

/-- **Line isolation.** A file of sound lines is isolated; and no line is left out for nothing: one
that is not sound is misread alone in a file, or in front of itself. -/
theorem line_isolation (around : Surroundings) (garbage : List Byte) (lines : List Line)
    (job : JobState) :
    ((∀ line ∈ lines, line.Sound) → Isolated around garbage lines job) ∧
      ∀ line : Line, ¬ line.Sound →
        ¬ (Isolated around garbage [line] job ∧ Isolated around garbage [line, line] job) :=
  ⟨isolated_of_sound around garbage job, fun _ unsound isolated =>
    unsound (sound_of_isolated isolated.1 isolated.2)⟩

/-- Misreadings may cancel in one file: the `WRITE` swallows the `READ [a]` behind it, and the third
line makes it again of the fourth. -/
example :
    let lines : List Line := [⟨ascii ['W', 'R', 'I', 'T', 'E'], by decide⟩,
      ⟨ascii ['R', 'E', 'A', 'D', ' ', '[', 'a', ']'], by decide⟩,
      ⟨ascii ['R', 'E', 'A', 'D', ' ', '[', 'a'] ++ [nul], by decide⟩,
      ⟨ascii ['#', ']'] ++ nul :: ascii ['X'], by decide⟩]
    (jobTrace [] (fileOf lines)).dispatched =
      lines.flatMap fun line => (jobTrace [] (fileOf [line])).dispatched := by
  decide

/-- A `WRITE` without arguments swallows the `SHOW` on the next line. -/
theorem bareWrite_not_isolated :
    ¬ Isolated ⟨fun _ shared => shared, fun _ => true⟩ []
      [⟨ascii ['W', 'R', 'I', 'T', 'E'], by decide⟩, ⟨ascii ['S', 'H', 'O', 'W'], by decide⟩]
      ⟨kvsInit, 0, [], 0, []⟩ := by
  rintro ⟨⟨final, ran⟩, _⟩
  have dispatched := congrArg (Option.map Prod.fst) ran
  rw [Option.map_some] at dispatched
  dsimp only at dispatched
  revert dispatched
  decide

end Kvs.Server
