/-
**A job file without its final newline.**

A line is well-formed when the parser reads it, its newline included, as one command that it does
not report. Each command form treats the end of the file in its own code, and they do not agree:

* `SHOW`, `BACKUP` and `HELP` take the end of the file for a newline; a comment is read up to it,
  and so is a `WAIT` with something behind its number;
* `WRITE`, `READ` and `DELETE` report a closing bracket with nothing behind it;
* a `WAIT` whose number ends the file converts what the stack held behind the digits with them.

`newlineOptional_iff` is about whole files: the final newline does not matter exactly when the last
line is of the first kind.
-/

import Kvs.Job.Commands
import Kvs.Job.Isolation

namespace Kvs.Server

open Scanner (Scan Scanned)
open Scanner.Scan

/-! ### Files and lines -/

/-- The parser reads the line as one command, and does not report it. -/
def Line.WellFormed (line : Line) : Prop :=
  ∀ garbage, ∃ dispatched overflow, dispatched ≠ some .invalid ∧
    nextDispatch garbage (line.text ++ [newline]) = ⟨some dispatched, [], false, overflow⟩

/-- The file is dispatched the same without its final newline, whatever the stack holds. -/
def NewlineOptional (lines : List Line) : Prop :=
  ∀ garbage, (jobTrace garbage (fileOf lines).dropLast).dispatched =
    (jobTrace garbage (fileOf lines)).dispatched

/-- The end of the file ends a command on this line as a newline would. -/
def EndsAtEof : List Byte → Prop
  | [] => True
  | ch :: text =>
    if ch = 'W'.toUInt8 then
      text.take 4 = ascii ['A', 'I', 'T', ' '] ∧ (text.drop 4).dropWhile isDigit ≠ []
    else ch ≠ 'R'.toUInt8 ∧ ch ≠ 'D'.toUInt8

instance (text : List Byte) : Decidable (EndsAtEof text) := by
  cases text with
  | nil => exact .isTrue trivial
  | cons ch text =>
    unfold EndsAtEof
    infer_instance

/-! ### The commands of the grammar are well-formed lines -/

theorem newline_notMem_word (word : Word) : newline ∉ word.str.bytes :=
  fun member => (word.plain newline member).2.2.2.2 rfl

theorem newline_notMem_keysText (keys : List Word) : newline ∉ keysText keys := by
  fun_induction keysText keys with
  | case1 => decide
  | case2 key =>
    rw [List.mem_append, not_or]
    exact ⟨newline_notMem_word key, by decide⟩
  | case3 key keys _ ih =>
    rw [List.mem_append, List.mem_append, not_or, not_or]
    exact ⟨⟨newline_notMem_word key, by decide⟩, ih⟩

theorem newline_notMem_pairsText (pairs : List (Word × Word)) : newline ∉ pairsText pairs := by
  fun_induction pairsText pairs with
  | case1 => decide
  | case2 key value =>
    simp only [List.mem_append, not_or]
    exact ⟨⟨⟨newline_notMem_word key, by decide⟩, newline_notMem_word value⟩, by decide⟩
  | case3 key value pairs _ ih =>
    simp only [List.mem_append, not_or]
    exact ⟨⟨⟨⟨newline_notMem_word key, by decide⟩, newline_notMem_word value⟩, by decide⟩, ih⟩

namespace JobCommand

theorem newline_notMem_line (command : JobCommand) : newline ∉ command.line := by
  cases command with
  | write pairs =>
    rw [line, List.mem_append, not_or]
    exact ⟨by decide, newline_notMem_pairsText pairs⟩
  | read keys =>
    rw [line, List.mem_append, not_or]
    exact ⟨by decide, newline_notMem_keysText keys⟩
  | delete keys =>
    rw [line, List.mem_append, not_or]
    exact ⟨by decide, newline_notMem_keysText keys⟩
  | wait delay =>
    rw [line, List.mem_append, not_or]
    exact ⟨by decide, fun member => absurd (decimal_digits delay newline member) (by decide)⟩
  | comment text oneLine =>
    rw [line, List.mem_append, not_or]
    exact ⟨by decide, oneLine⟩
  | _ => decide

/-- The line of a command. -/
def toLine (command : JobCommand) : Line := ⟨command.line, command.newline_notMem_line⟩

theorem toLine_wellFormed (command : JobCommand) : command.toLine.WellFormed := by
  intro garbage
  refine ⟨command.dispatch, false, ?_, ?_⟩
  · cases command with
    | _ => simp [dispatch]
  · have read := nextDispatch_text garbage command []
    rwa [List.append_nil] at read

end JobCommand

/-! ### From files to their last line -/

variable {line : Line}

/-- The one iteration on a well-formed line. -/
theorem Line.WellFormed.step (wellFormed : line.WellFormed) (garbage : List Byte) :
    ∃ trace, trace.overran = false ∧
      jobStep garbage (line.text ++ [newline]) = some (trace, []) := by
  obtain ⟨dispatched, overflow, _, read⟩ := wellFormed garbage
  exact ⟨⟨dispatched.toList, false, overflow⟩, rfl, by rw [jobStep, read]; rfl⟩

/-- A file of well-formed lines is not read past its end. -/
theorem jobTrace_full {lines : List Line} (wellFormed : ∀ line ∈ lines, line.WellFormed)
    (garbage : List Byte) : (jobTrace garbage (fileOf lines)).overran = false := by
  induction lines with
  | nil => rfl
  | cons line lines ih =>
    obtain ⟨trace, full, step⟩ := (wellFormed line List.mem_cons_self).step garbage
    have later := ih fun line member => wellFormed line (List.mem_cons_of_mem _ member)
    rw [fileOf_cons, jobTrace_step (jobStep_append step full (fileOf lines))]
    exact Bool.or_eq_false_iff.mpr ⟨full, later⟩

/-- The last line alone decides. -/
theorem newlineOptional_snoc {lines : List Line} (wellFormed : ∀ line ∈ lines, line.WellFormed)
    (last : Line) :
    NewlineOptional (lines ++ [last]) ↔ ∀ garbage,
      (jobTrace garbage last.text).dispatched =
        (jobTrace garbage (last.text ++ [newline])).dispatched := by
  have split : fileOf (lines ++ [last]) = fileOf lines ++ (last.text ++ [newline]) := by
    rw [fileOf, List.flatMap_append, List.flatMap_singleton]
    rfl
  have cut : (fileOf (lines ++ [last])).dropLast = fileOf lines ++ last.text := by
    rw [split, ← List.append_assoc, List.dropLast_concat]
  refine forall_congr' fun garbage => ?_
  have full := jobTrace_full wellFormed garbage
  rw [cut, split, jobTrace_append full, jobTrace_append full]
  exact List.append_cancel_left_eq _ _ _ |>.to_iff

/-- Without its newline a well-formed line is read to the end of the file. -/
theorem Line.WellFormed.hitEnd (wellFormed : line.WellFormed) (garbage : List Byte) :
    (nextDispatch garbage line.text).hitEnd = true := by
  obtain ⟨dispatched, overflow, _, read⟩ := wellFormed garbage
  obtain ⟨text, oneLine⟩ := line
  cases text with
  | nil => rfl
  | cons ch text =>
    rw [List.cons_append, nextDispatch_cons] at read
    rw [nextDispatch_cons]
    by_contra stopped
    have framed := (regular_dispatchAfter garbage ch).frame text [newline] (by simpa using stopped)
    rw [read, Scanned.mk.injEq] at framed
    exact List.append_ne_nil_of_right_ne_nil _ (List.cons_ne_nil _ _) framed.2.1.symm

/-- What is dispatched from the last line alone is the value of its one iteration. -/
theorem dispatched_eq_iff {ch : Byte} {text : List Byte} {oneLine : newline ∉ ch :: text}
    (wellFormed : Line.WellFormed ⟨ch :: text, oneLine⟩) (garbage : List Byte) :
    (jobTrace garbage (ch :: text)).dispatched =
        (jobTrace garbage (ch :: text ++ [newline])).dispatched ↔
      (dispatchAfter garbage ch text).val = (dispatchAfter garbage ch (text ++ [newline])).val := by
  have atEof := wellFormed.hitEnd garbage
  obtain ⟨dispatched, overflow, _, read⟩ := wellFormed garbage
  have step : jobStep garbage (ch :: text ++ [newline]) =
      some (⟨dispatched.toList, false, overflow⟩, []) := by
    rw [jobStep, read]
    rfl
  obtain ⟨dispatchedEof, given, stepEof⟩ := jobStep_of_ne_nil garbage (List.cons_ne_nil ch text)
  rw [nextDispatch_cons] at atEof given stepEof
  rw [List.cons_append, nextDispatch_cons] at read
  rw [(regular_dispatchAfter garbage ch).drained text atEof] at stepEof
  rw [jobTrace_step step, jobTrace_step stepEof, given, read]
  show dispatchedEof.toList ++ [] = dispatched.toList ++ [] ↔ _
  rw [List.append_nil, List.append_nil]
  constructor
  · intro same
    rw [← Option.head?_toList (o := dispatchedEof), same, Option.head?_toList]
  · intro same
    rw [Option.some.inj same]

/-! ### Lists -/

section Lists

variable {capacity room stringSize : ℕ}

/-- A string that is ended. -/
theorem whole_readStringLoop :
    ∀ buffer, Whole (readStringLoop capacity room buffer) (0 ≤ ·.1) := by
  have ended : ¬ (0 : Int) ≤ -1 := by decide
  induction room with
  | zero =>
    exact fun buffer => whole_refuse (gives_bind_any fun _ => gives_pure ended)
  | succ room ih =>
    intro buffer
    have first : Whole (read 1) fun tokens : List Byte => tokens ≠ [] :=
      whole_read 1 fun _ some => List.length_pos_iff.mpr some
    refine whole_bind first (fun tokens some => ?_) fun tokens nothing => ?_
    · obtain ⟨ch, more, rfl⟩ := List.exists_cons_of_ne_nil some
      have stored : ∀ code : Int, Whole (do
          store buffer.length capacity
          return (code, buffer) : Parse (Int × List Byte)) (0 ≤ ·.1) :=
        fun code _ _ => rfl
      refine whole_ite (whole_pure _) (whole_ite (stored 0) (whole_ite (stored 1)
        (whole_ite (stored 2) ?_)))
      exact whole_bind (show Whole (store _ _) fun _ => True from whole_store _ _)
        (fun _ _ => ih _) fun _ nothing => absurd trivial nothing
    · rw [not_not.mp nothing]
      exact gives_pure ended

theorem whole_readString : Whole (readString capacity room) (0 ≤ ·.1) := whole_readStringLoop []

theorem whole_parsePair : Whole (parsePair capacity) (·.isSome) := by
  have cleaned : Gives (cleanupWith (none : Option (List Byte × List Byte))) (¬ ·.isSome) :=
    gives_cleanupWith (by decide)
  refine whole_bind whole_readString (fun key _ => whole_ite (whole_refuse cleaned) ?_) ?_
  · refine whole_bind whole_readString (fun value _ => whole_ite (whole_refuse cleaned)
      (whole_pure _)) ?_
    rintro ⟨code, value⟩ unended
    have other : code ≠ 1 := fun same => unended (same ▸ Int.one_nonneg)
    show Gives (if code ≠ 1 then cleanupWith none else pure (some (key.2, value))) _
    rw [if_pos other]
    exact cleaned
  · rintro ⟨code, key⟩ unended
    have other : code ≠ 0 := fun same => unended (same ▸ le_refl (0 : Int))
    dsimp only
    rw [if_pos other]
    exact cleaned

theorem whole_copyRow (buffer : List Byte) : Whole (copyRow buffer) fun _ => True :=
  fun _ _ => rfl

theorem whole_parseWriteLoop :
    ∀ pairs, Whole (parseWriteLoop stringSize room pairs) (·.isSome) := by
  have cleaned : Gives (cleanupWith (none : Option (List (CStr × CStr)))) (¬ ·.isSome) :=
    gives_cleanupWith (by decide)
  induction room with
  | zero => exact fun pairs => whole_pure _
  | succ room ih =>
    intro pairs
    refine whole_bind whole_parsePair (fun pair paired => ?_) fun pair unpaired => ?_
    · obtain ⟨pair, rfl⟩ := Option.isSome_iff_exists.mp paired
      refine whole_bind (whole_copyRow _) (fun key _ => ?_) fun _ nothing => absurd trivial nothing
      refine whole_bind (whole_copyRow _) (fun value _ => ?_)
        fun _ nothing => absurd trivial nothing
      refine whole_bind (whole_read 1 fun tokens (some : tokens ≠ []) =>
        List.length_pos_iff.mpr some) (fun ch _ => ?_) fun ch nothing => ?_
      · exact whole_ite (ih _) (whole_ite (whole_pure _) (whole_refuse cleaned))
      · rw [not_not.mp nothing]
        exact cleaned
    · obtain rfl := Option.not_isSome_iff_eq_none.mp unpaired
      exact cleaned

theorem whole_parseKeysLoop :
    ∀ keys, Whole (parseKeysLoop stringSize room keys) (·.isSome) := by
  have cleaned : Gives (cleanupWith (none : Option (List CStr))) (¬ ·.isSome) :=
    gives_cleanupWith (by decide)
  induction room with
  | zero => exact fun keys => whole_pure _
  | succ room ih =>
    intro keys
    refine whole_bind whole_readString (fun outcome _ => ?_) ?_
    · refine whole_ite (whole_refuse cleaned) ?_
      exact whole_bind (whole_copyRow _) (fun _ _ => whole_ite (whole_pure _) (ih _))
        fun _ nothing => absurd trivial nothing
    · rintro ⟨output, key⟩ unended
      dsimp only
      rw [if_pos (Or.inl (not_le.mp unended))]
      exact cleaned

/-- A list is given only behind the byte that ends its command. -/
theorem whole_afterLoop {α : Type} {max : ℕ} {loop : Parse (Option (List α))}
    (whole : Whole loop (·.isSome)) : Whole (loop >>= afterLoop max) (· ≠ []) := by
  have cleaned : Gives (cleanupWith ([] : List α)) (¬ · ≠ []) :=
    gives_cleanupWith fun some => some rfl
  refine whole_bind whole (fun items collected => ?_) fun items nothing => ?_
  · obtain ⟨items, rfl⟩ := Option.isSome_iff_exists.mp collected
    refine whole_ite (whole_refuse cleaned) ?_
    refine whole_bind (whole_read 1 fun tokens (some : tokens ≠ []) =>
      List.length_pos_iff.mpr some) (fun ch _ => ?_) fun ch nothing => ?_
    · exact whole_ite (whole_pure _) (whole_refuse cleaned)
    · rw [not_not.mp nothing]
      exact cleaned
  · obtain rfl := Option.not_isSome_iff_eq_none.mp nothing
    exact gives_pure fun some => some rfl

/-- A list that starts with the byte it must. -/
theorem whole_expect {α : Type} {expected : List Byte} {parse : Parse (List α)}
    (visible : expected ≠ []) (whole : Whole parse (· ≠ [])) :
    Whole (read 1 >>= fun ch => if ch ≠ expected then cleanupWith [] else parse) (· ≠ []) := by
  have cleaned : Gives (cleanupWith ([] : List α)) (¬ · ≠ []) :=
    gives_cleanupWith fun some => some rfl
  refine whole_bind (whole_read 1 fun tokens (some : tokens ≠ []) => List.length_pos_iff.mpr some)
    (fun ch _ => whole_ite (whole_refuse cleaned) whole) fun ch nothing => ?_
  rw [not_not.mp nothing, if_pos visible.symm]
  exact cleaned

/-- The arguments of a list command. -/
theorem whole_listed {α : Type} {parse : Parse (List α)} (dispatch : List α → Dispatch)
    (whole : Whole parse (· ≠ [])) :
    Whole (parse >>= fun items => pure (some (some (if items = [] then .invalid
      else dispatch items)))) Accepted := by
  refine whole_bind whole (fun _ _ => whole_pure _) fun items nothing => gives_pure ?_
  rw [if_pos (not_not.mp nothing)]
  rintro ⟨dispatch, same, valid⟩
  exact valid (Option.some.inj (Option.some.inj same)).symm

end Lists

/-- A command that takes a list. -/
def Command.TakesList (command : Command) : Prop :=
  command = .write ∨ command = .read ∨ command = .delete

/-- **`WRITE`, `READ` and `DELETE` are accepted only when no read came back short.** -/
theorem whole_parseArguments (garbage : List Byte) {command : Command}
    (takesList : command.TakesList) : Whole (parseArguments garbage command) Accepted := by
  rcases takesList with rfl | rfl | rfl
  · exact whole_listed .write (whole_expect (by decide) (whole_expect (by decide)
      (whole_afterLoop (whole_parseWriteLoop []))))
  · exact whole_listed .read (whole_expect (by decide) (whole_afterLoop (whole_parseKeysLoop [])))
  · exact whole_listed .delete
      (whole_expect (by decide) (whole_afterLoop (whole_parseKeysLoop [])))

/-! ### The last line -/

section LastLine

variable {garbage : List Byte} {text : List Byte} {command : Command} {keyword : List Byte}

/-- The keyword stands on a line whose command is not reported. -/
theorem keyword_of_valid (visible : newline ∉ keyword) {parse : Parse Command}
    (valid : ¬ Reported (((read keyword.length >>= fun got =>
      if got = keyword then parse else cleanupWith .invalid) >>= parseArguments garbage)
        (text ++ [newline])).val) : ∃ left, text = keyword ++ left := by
  by_contra absent
  refine valid ?_
  have different : (text ++ [newline]).take keyword.length ≠ keyword := by
    intro same
    rcases List.prefix_concat_iff.mp (List.prefix_iff_eq_take.mpr same.symm) with whole | inside
    · exact visible (whole ▸ List.mem_append_right _ (List.mem_singleton_self _))
    · obtain ⟨left, rfl⟩ := inside
      exact absent ⟨left, rfl⟩
  show Reported (((if (text ++ [newline]).take keyword.length = keyword then parse
    else cleanupWith .invalid) >>= parseArguments garbage)
      ((text ++ [newline]).drop keyword.length)).val
  rw [if_neg different]
  rfl

/-- `SHOW`, `BACKUP` and `HELP` are the same at the end of the file. -/
theorem alone_eof (visible : newline ∉ keyword) (oneLine : newline ∉ text)
    (valid : ¬ Reported ((keywordAlone keyword command >>= parseArguments garbage)
      (text ++ [newline])).val) :
    ((keywordAlone keyword command >>= parseArguments garbage) text).val =
      ((keywordAlone keyword command >>= parseArguments garbage) (text ++ [newline])).val := by
  obtain ⟨left, rfl⟩ := keyword_of_valid visible valid
  have got : ∀ file : List Byte, keywordAlone keyword command (keyword ++ file) =
      (read 1 >>= fun last => if last = [] ∨ last = [newline] then pure command
        else cleanupWith Command.invalid : Parse Command) file := by
    intro file
    rw [keywordAlone, bind_of_clean (read_append keyword file), if_pos rfl]
  rw [List.append_assoc] at valid ⊢
  rw [bind_of_eq (got _)] at valid
  rw [bind_of_eq (got _), bind_of_eq (got _)]
  cases left with
  | nil => rfl
  | cons ch left =>
    have notNewline : ch ≠ newline := fun same => oneLine (by simp [same])
    refine absurd ?_ valid
    rw [List.cons_append, bind_of_eq (bind_of_clean (read_one_cons ch (left ++ [newline]))),
      if_neg (by simp [notNewline])]
    rfl

/-- What `run_job` makes of the number `parse_wait` reads and of the byte behind it. -/
def waitDispatch : Option ℕ × Byte → Dispatch
  | (none, _) => .invalid
  | (some delay, ch) => if ch = ' '.toUInt8 ∨ ch = newline ∨ ch = nul then .wait delay else .invalid

theorem parseArguments_wait (garbage text : List Byte) :
    (parseArguments garbage .wait text).val =
      some (some (waitDispatch (readUint garbage text).val)) := by
  show some (some (if (parseWait garbage false text).val.code = -1 then Dispatch.invalid
    else Dispatch.wait ((parseWait garbage false text).val.delay.getD 0))) = _
  rw [parseWait, bind_apply]
  obtain ⟨delay, ch⟩ := (readUint garbage text).val
  cases delay with
  | none => rfl
  | some delay =>
    rw [waitDispatch]
    by_cases blank : ch = ' '.toUInt8
    · simp only [blank, true_or, if_true]
      rfl
    by_cases ended : ch = newline ∨ ch = nul
    · simp only [if_neg blank, if_pos ended, if_pos (Or.inr ended : _ ∨ _)]
      rfl
    · simp only [if_neg blank, if_neg ended, if_neg (not_or.mpr ⟨blank, ended⟩)]
      rfl

/-- A number with something behind it on its line is read the same at the end of the file. -/
theorem wait_eof_same (behind : text.dropWhile isDigit ≠ []) :
    (parseArguments garbage .wait text).val =
      (parseArguments garbage .wait (text ++ [newline])).val := by
  have whole := List.takeWhile_append_dropWhile (p := isDigit) (l := text)
  have areDigits := isDigit_of_mem_takeWhile text
  obtain ⟨ch, left, after⟩ := List.exists_cons_of_ne_nil behind
  have other := not_isDigit_of_dropWhile after
  rw [parseArguments_wait, parseArguments_wait, ← whole, after, List.append_assoc,
    List.cons_append, readUint_numeral garbage areDigits other,
    readUint_numeral garbage areDigits other]

/-- A number that ends the file is not: the stack may hold another digit behind it. -/
theorem wait_eof_differs (areDigits : ∀ byte ∈ text, isDigit byte)
    (valid : ¬ Reported (parseArguments [] .wait (text ++ [newline])).val) :
    ∃ garbage, (parseArguments garbage .wait text).val ≠
      (parseArguments garbage .wait (text ++ [newline])).val := by
  have one : ∀ byte ∈ [digitByte 1], isDigit byte := List.forall_mem_singleton.mpr rfl
  refine ⟨List.replicate text.length nul ++ [digitByte 1], ?_⟩
  have left : (List.replicate text.length nul ++ [digitByte 1]).drop text.length =
      [digitByte 1] := by
    rw [List.drop_left' (List.length_replicate ..)]
  have more : digitsValue (text ++ [digitByte 1]) = 10 * digitsValue text + 1 := by
    rw [digitsValue, List.foldl_append]
    rfl
  have read := fun garbage => readUint_numeral garbage areDigits
    (show isDigit newline = false by decide) []
  rw [parseArguments_wait, read] at valid
  rw [parseArguments_wait, parseArguments_wait, read, readUint_eof areDigits one left, more]
  by_cases large : uintMax < digitsValue text
  · rw [if_pos large] at valid
    exact absurd rfl valid
  · rw [if_neg large]
    intro same
    have same : waitDispatch (_, nul) = .wait (digitsValue text) :=
      Option.some.inj (Option.some.inj same)
    by_cases larger : uintMax < 10 * digitsValue text + 1
    · rw [if_pos larger] at same
      cases same
    · rw [if_neg larger] at same
      have grown : 10 * digitsValue text + 1 = digitsValue text := Dispatch.wait.inj same
      omega

/-- A list command is accepted on its line and not at the end of the file. -/
theorem listed_differs (visible : newline ∉ keyword) (takesList : command.TakesList)
    (accepted : Accepted ((keywordWithBlank keyword command >>= parseArguments garbage)
      (text ++ [newline])).val)
    (atEof : ((keywordWithBlank keyword command >>= parseArguments garbage) text).hitEnd = true) :
    ((keywordWithBlank keyword command >>= parseArguments garbage) text).val ≠
      ((keywordWithBlank keyword command >>= parseArguments garbage) (text ++ [newline])).val := by
  have valid : ¬ Reported ((keywordWithBlank keyword command >>= parseArguments garbage)
      (text ++ [newline])).val := by
    intro reported
    obtain ⟨dispatch, equal, valid⟩ := accepted
    exact valid (Option.some.inj (Option.some.inj (equal.symm.trans reported)))
  obtain ⟨left, rfl⟩ := keyword_of_valid visible valid
  intro same
  rw [← same, bind_of_clean (keywordWithBlank_keyword keyword command left)] at accepted
  rw [bind_of_clean (keywordWithBlank_keyword keyword command left),
    whole_parseArguments garbage takesList left accepted] at atEof
  cases atEof

end LastLine

section FirstByte

variable {ch : Byte} {text : List Byte} {oneLine : newline ∉ ch :: text}

theorem Line.WellFormed.valid (wellFormed : Line.WellFormed ⟨ch :: text, oneLine⟩)
    (garbage : List Byte) : ¬ Reported (dispatchAfter garbage ch (text ++ [newline])).val := by
  obtain ⟨dispatched, overflow, valid, read⟩ := wellFormed garbage
  rw [List.cons_append, nextDispatch_cons] at read
  rw [read]
  exact fun reported => valid (Option.some.inj reported)

/-- A command other than a comment is accepted. -/
theorem Line.WellFormed.accepted (wellFormed : Line.WellFormed ⟨ch :: text, oneLine⟩)
    (notComment : ch ≠ '#'.toUInt8) (garbage : List Byte) :
    Accepted (dispatchAfter garbage ch (text ++ [newline])).val := by
  have notEmpty : ch ≠ newline := fun same => oneLine (by simp [same])
  rcases resyncs_dispatchAfter garbage notComment notEmpty (text ++ [newline]) with
    accepted | ⟨reported, _⟩
  · exact accepted
  · exact absurd reported (wellFormed.valid garbage)

theorem Line.WellFormed.atEof (wellFormed : Line.WellFormed ⟨ch :: text, oneLine⟩)
    (garbage : List Byte) : (dispatchAfter garbage ch text).hitEnd = true := by
  rw [← nextDispatch_cons]
  exact wellFormed.hitEnd garbage

end FirstByte

/-- `READ` and `DELETE`. -/
theorem readDelete_eof {ch : Byte} {text : List Byte} {oneLine : newline ∉ ch :: text}
    (wellFormed : Line.WellFormed ⟨ch :: text, oneLine⟩) (notComment : ch ≠ '#'.toUInt8)
    {keyword : List Byte} {command : Command} (visible : newline ∉ keyword)
    (takesList : command.TakesList) (body : commandAfter ch = keywordWithBlank keyword command) :
    ¬ ∀ garbage, (dispatchAfter garbage ch text).val =
      (dispatchAfter garbage ch (text ++ [newline])).val := by
  intro same
  have accepted := wellFormed.accepted notComment []
  have atEof := wellFormed.atEof []
  have same := same []
  rw [dispatchAfter, body] at accepted atEof same
  exact listed_differs visible takesList accepted atEof same

/-- `SHOW`, `BACKUP` and `HELP`. -/
theorem alone_same {ch : Byte} {text : List Byte} {oneLine : newline ∉ ch :: text}
    (wellFormed : Line.WellFormed ⟨ch :: text, oneLine⟩) {keyword : List Byte} {command : Command}
    (visible : newline ∉ keyword) (body : commandAfter ch = keywordAlone keyword command)
    (garbage : List Byte) :
    (dispatchAfter garbage ch text).val = (dispatchAfter garbage ch (text ++ [newline])).val := by
  have valid := wellFormed.valid garbage
  rw [dispatchAfter, body] at valid ⊢
  exact alone_eof visible (fun member => oneLine (List.mem_cons_of_mem _ member)) valid

/-- `WRITE` and `WAIT`. -/
theorem writeOrWait_eof {text : List Byte} {oneLine : newline ∉ 'W'.toUInt8 :: text}
    (wellFormed : Line.WellFormed ⟨'W'.toUInt8 :: text, oneLine⟩) :
    (∀ garbage, (dispatchAfter garbage 'W'.toUInt8 text).val =
        (dispatchAfter garbage 'W'.toUInt8 (text ++ [newline])).val) ↔
      text.take 4 = ascii ['A', 'I', 'T', ' '] ∧ (text.drop 4).dropWhile isDigit ≠ [] := by
  have body : ∀ garbage, dispatchAfter garbage 'W'.toUInt8 =
      (waitOrWrite >>= parseArguments garbage) := fun garbage => by
    rw [dispatchAfter, commandAfter, if_pos rfl]
  by_cases wait : text.take 4 = ascii ['A', 'I', 'T', ' ']
  · -- `WAIT`: what decides is whether something stands behind the number
    obtain ⟨argument, rfl⟩ : ∃ argument, text = ascii ['A', 'I', 'T', ' '] ++ argument :=
      ⟨text.drop 4, by rw [← wait, List.take_append_drop]⟩
    have read : ∀ garbage left, dispatchAfter garbage 'W'.toUInt8
        (ascii ['A', 'I', 'T', ' '] ++ left) = parseArguments garbage .wait left :=
      fun garbage left => by rw [body, bind_of_clean (waitOrWrite_wait left)]
    have dropped : (ascii ['A', 'I', 'T', ' '] ++ argument).drop 4 = argument := rfl
    simp only [List.append_assoc, read, dropped, wait, true_and]
    constructor
    · intro same nothing
      have areDigits : ∀ byte ∈ argument, isDigit byte := by
        rw [← List.takeWhile_append_dropWhile (p := isDigit) (l := argument), nothing,
          List.append_nil]
        exact isDigit_of_mem_takeWhile argument
      have valid := wellFormed.valid []
      rw [List.append_assoc, read] at valid
      obtain ⟨garbage, differs⟩ := wait_eof_differs areDigits valid
      exact differs (same garbage)
    · exact fun behind garbage => wait_eof_same behind
  · -- `WRITE`
    have bodyWrite : ∀ file : List Byte, file.take 4 ≠ ascii ['A', 'I', 'T', ' '] →
        dispatchAfter [] 'W'.toUInt8 file =
          (keywordWithBlank (ascii ['R', 'I', 'T', 'E', ' ']) .write >>= parseArguments []) file :=
      fun file other => by rw [body, bind_of_eq (waitOrWrite_eq other)]
    refine ⟨fun same => ?_, fun ends => absurd ends.1 wait⟩
    have accepted := wellFormed.accepted (by decide) []
    have atEof := wellFormed.atEof []
    have same := same []
    rw [bodyWrite _ (notWait_newline wait)] at accepted same
    rw [bodyWrite _ wait] at atEof same
    exact absurd same (listed_differs (by decide) (Or.inl rfl) accepted atEof)

/-- **The end of the file ends a command exactly on the lines `EndsAtEof` names.** -/
theorem eof_iff {ch : Byte} {text : List Byte} {oneLine : newline ∉ ch :: text}
    (wellFormed : Line.WellFormed ⟨ch :: text, oneLine⟩) :
    (∀ garbage, (dispatchAfter garbage ch text).val =
        (dispatchAfter garbage ch (text ++ [newline])).val) ↔ EndsAtEof (ch :: text) := by
  rw [EndsAtEof]
  by_cases write : ch = 'W'.toUInt8
  · subst write
    rw [if_pos rfl]
    exact writeOrWait_eof wellFormed
  rw [if_neg write]
  by_cases read : ch = 'R'.toUInt8
  · subst read
    exact iff_of_false (readDelete_eof wellFormed (by decide) (by decide) (Or.inr (Or.inl rfl)) rfl)
      fun ends => ends.1 rfl
  by_cases delete : ch = 'D'.toUInt8
  · subst delete
    exact iff_of_false (readDelete_eof wellFormed (by decide) (by decide) (Or.inr (Or.inr rfl)) rfl)
      fun ends => ends.2 rfl
  refine iff_of_true ?_ ⟨read, delete⟩
  intro garbage
  by_cases «show» : ch = 'S'.toUInt8
  · subst «show»
    exact alone_same wellFormed (by decide) rfl garbage
  by_cases backup : ch = 'B'.toUInt8
  · subst backup
    exact alone_same wellFormed (by decide) rfl garbage
  by_cases help : ch = 'H'.toUInt8
  · subst help
    exact alone_same wellFormed (by decide) rfl garbage
  by_cases comment : ch = '#'.toUInt8
  · subst comment
    rfl
  -- any other line is reported
  have notNewline : ch ≠ newline := fun same => oneLine (by simp [same])
  have body : commandAfter ch = cleanupWith .invalid := by
    rw [commandAfter, if_neg write, if_neg read, if_neg delete, if_neg «show», if_neg backup,
      if_neg help, if_neg comment, if_neg notNewline]
  refine absurd ?_ (wellFormed.valid garbage)
  rw [dispatchAfter, body]
  rfl

/-- **A missing final newline** does not matter exactly when the last line is a command that the end
of the file ends. -/
theorem newlineOptional_iff (lines : List Line) (wellFormed : ∀ line ∈ lines, line.WellFormed) :
    NewlineOptional lines ↔ ∀ line ∈ lines.getLast?, EndsAtEof line.text := by
  rcases List.eq_nil_or_concat lines with rfl | ⟨earlier, last, rfl⟩
  · constructor
    · rintro _ line ⟨⟩
    · exact fun _ garbage => rfl
  rw [List.concat_eq_append] at wellFormed ⊢
  have earlierWell : ∀ line ∈ earlier, line.WellFormed := fun line member =>
    wellFormed line (List.mem_append_left _ member)
  have lastWell := wellFormed last (List.mem_append_right _ (List.mem_singleton_self _))
  rw [newlineOptional_snoc earlierWell, List.getLast?_concat]
  have ending : (∀ line ∈ some last, EndsAtEof line.text) ↔ EndsAtEof last.text :=
    ⟨fun all => all last rfl, fun ends line same => Option.some.inj same ▸ ends⟩
  rw [ending]
  obtain ⟨text, oneLine⟩ := last
  cases text with
  | nil => exact ⟨fun _ => trivial, fun _ garbage => rfl⟩
  | cons ch text =>
    rw [← eof_iff lastWell]
    exact forall_congr' fun garbage => dispatched_eq_iff lastWell garbage

/-- `READ [r]`. -/
def readOneKey : JobCommand :=
  .read [⟨⟨ascii ['r'], by decide⟩, by decide, List.forall_mem_singleton.mpr (by decide)⟩]
    (List.cons_ne_nil _ _) (by decide)

/-- A `READ` and then a `SHOW`, whose newline may be missing. -/
theorem newlineOptional_show : NewlineOptional [readOneKey.toLine, JobCommand.show.toLine] := by
  refine (newlineOptional_iff _ fun line member => ?_).mpr ?_
  · rcases List.mem_pair.mp member with rfl | rfl
    · exact readOneKey.toLine_wellFormed
    · exact JobCommand.show.toLine_wellFormed
  · rintro line ⟨⟩
    exact (by decide : EndsAtEof (ascii ['S', 'H', 'O', 'W']))

/-- `READ [r]` is reported when its newline is missing. -/
theorem readOneKey_not_newlineOptional :
    ¬ ∀ lines : List Line, (∀ line ∈ lines, line.WellFormed) → NewlineOptional lines := by
  intro optional
  have same := optional [readOneKey.toLine]
    (List.forall_mem_singleton.mpr readOneKey.toLine_wellFormed) []
  exact absurd same (by decide)

end Kvs.Server
