/-
**The trace of a job file.**

Every iteration of `run_job` but the last consumes at least one byte, so the loop ends within one
iteration more than the file has bytes. `jobTrace` is what it dispatches until then.

`jobTrace_append` is the frame rule of whole runs: a file that is dispatched without reading past
its end is dispatched the same way in front of any other file.
-/

import Kvs.Server.ParserFrame

namespace Kvs.Server

open Scanner.Scan

variable {garbage file later rest : List Byte} {trace : Trace}

namespace Trace

theorem append_assoc (first second third : Trace) :
    (first.append second).append third = first.append (second.append third) := by
  simp only [append, List.append_assoc, Bool.or_assoc]

end Trace

/-! ### One iteration -/

theorem nextDispatch_suffix (garbage : List Byte) (ch : Byte) (file : List Byte) :
    (nextDispatch garbage (ch :: file)).rest <:+ file := by
  rw [nextDispatch_cons]
  exact (regular_dispatchAfter garbage ch).suffix file

/-- A command that is not `EOC` takes at least one byte. -/
theorem jobStep_shorter (step : jobStep garbage file = some (trace, rest)) :
    rest.length < file.length := by
  cases file with
  | nil => cases step
  | cons ch file =>
    obtain ⟨dispatched, _, equal⟩ := Option.map_eq_some_iff.mp step
    cases equal
    exact Nat.lt_succ_of_le (nextDispatch_suffix garbage ch file).length_le

/-- A first character is never the end of the commands. -/
theorem commandAfter_ne_eoc (ch : Byte) : Gives (commandAfter ch) (· ≠ .eoc) := by
  have cleaned : Gives (cleanupWith Command.invalid) (· ≠ .eoc) := gives_cleanupWith (by decide)
  have withBlank : ∀ (keyword : List Byte) (command : Command), command ≠ .eoc →
      Gives (keywordWithBlank keyword command) (· ≠ .eoc) := fun keyword command different =>
    gives_bind_any fun _ => gives_ite (gives_pure different) cleaned
  have alone : ∀ (keyword : List Byte) (command : Command), command ≠ .eoc →
      Gives (keywordAlone keyword command) (· ≠ .eoc) := fun keyword command different =>
    gives_bind_any fun _ => gives_ite
      (gives_bind_any fun _ => gives_ite (gives_pure different) cleaned) cleaned
  have wait : Gives waitOrWrite (· ≠ .eoc) :=
    gives_bind_any fun _ => gives_ite (gives_pure (by decide))
      (gives_bind_any fun _ => gives_ite (gives_pure (by decide)) cleaned)
  exact gives_ite wait <| gives_ite (withBlank _ _ (by decide)) <|
    gives_ite (withBlank _ _ (by decide)) <| gives_ite (alone _ _ (by decide)) <|
    gives_ite (alone _ _ (by decide)) <| gives_ite (alone _ _ (by decide)) <|
    gives_ite (gives_bind_any fun _ => gives_pure (by decide)) <|
    gives_ite (gives_pure (by decide)) cleaned

theorem parseArguments_isSome (garbage : List Byte) {command : Command}
    (different : command ≠ .eoc) :
    Gives (parseArguments garbage command) (·.isSome) := by
  cases command with
  | eoc => exact absurd rfl different
  | write => exact gives_bind_any fun _ => gives_pure rfl
  | read => exact gives_bind_any fun _ => gives_pure rfl
  | delete => exact gives_bind_any fun _ => gives_pure rfl
  | wait => exact gives_bind_any fun _ => gives_pure rfl
  | _ => exact gives_pure rfl

/-- **Only the end of the file is `EOC`.** -/
theorem jobStep_eq_none : jobStep garbage file = none ↔ file = [] := by
  cases file with
  | nil => exact ⟨fun _ => rfl, fun _ => rfl⟩
  | cons ch file =>
    have given : (nextDispatch garbage (ch :: file)).val.isSome := by
      rw [nextDispatch_cons]
      exact gives_bind (commandAfter_ne_eoc ch)
        (fun _ different => parseArguments_isSome garbage different) file
    obtain ⟨dispatched, equal⟩ := Option.isSome_iff_exists.mp given
    rw [jobStep, equal]
    simp

/-- What an iteration on a nonempty file is. -/
theorem jobStep_of_ne_nil (garbage : List Byte) {file : List Byte} (nonempty : file ≠ []) :
    ∃ dispatched, (nextDispatch garbage file).val = some dispatched ∧
      jobStep garbage file = some (⟨dispatched.toList, (nextDispatch garbage file).hitEnd,
        (nextDispatch garbage file).overflow⟩, (nextDispatch garbage file).rest) := by
  cases step : jobStep garbage file with
  | none => exact absurd (jobStep_eq_none.mp step) nonempty
  | some stepped =>
    obtain ⟨dispatched, given, equal⟩ := Option.map_eq_some_iff.mp step
    exact ⟨dispatched, given, by rw [← equal]⟩

/-! ### Whole runs -/

theorem dispatchLoop_mono {iterations : ℕ}
    (looped : dispatchLoop garbage iterations file = some trace) (more : ℕ) :
    dispatchLoop garbage (iterations + more) file = some trace := by
  induction iterations generalizing file trace with
  | zero => cases looped
  | succ iterations ih =>
    rw [Nat.succ_add, dispatchLoop]
    rw [dispatchLoop] at looped
    split
    · rename_i step
      rw [step] at looped
      exact looped
    · rename_i first rest step
      rw [step] at looped
      obtain ⟨later, loopedLater, appended⟩ := Option.map_eq_some_iff.mp looped
      rw [ih loopedLater, ← appended]
      rfl

/-- The loop meets `EOC` within one iteration more than the file has bytes. -/
theorem dispatchLoop_total (garbage file : List Byte) :
    ∃ trace, dispatchLoop garbage (file.length + 1) file = some trace := by
  induction bytes : file.length using Nat.strong_induction_on generalizing file with
  | _ size ih =>
    cases step : jobStep garbage file with
    | none => exact ⟨.empty, by rw [← bytes, dispatchLoop, step]⟩
    | some stepped =>
      obtain ⟨first, rest⟩ := stepped
      have shorter := jobStep_shorter step
      obtain ⟨later, looped⟩ := ih rest.length (bytes ▸ shorter) rest rfl
      have enough := dispatchLoop_mono looped (file.length - (rest.length + 1))
      rw [Nat.add_sub_cancel' (Nat.succ_le_of_lt shorter)] at enough
      refine ⟨first.append later, ?_⟩
      rw [← bytes, dispatchLoop, step]
      exact congrArg (Option.map _) enough

/-- What `run_job` dispatches from a file, and its marks. -/
def jobTrace (garbage file : List Byte) : Trace :=
  (dispatchLoop garbage (file.length + 1) file).getD .empty

/-- The loop gives the trace as soon as it gives anything. -/
theorem dispatchLoop_eq (iterations : ℕ)
    (looped : dispatchLoop garbage iterations file = some trace) :
    jobTrace garbage file = trace := by
  obtain ⟨total, reached⟩ := dispatchLoop_total garbage file
  have one := dispatchLoop_mono looped (file.length + 1)
  have two := dispatchLoop_mono reached iterations
  rw [Nat.add_comm, two] at one
  rw [jobTrace, reached, Option.getD_some]
  exact Option.some.inj one

theorem dispatchLoop_jobTrace (garbage file : List Byte) :
    dispatchLoop garbage (file.length + 1) file = some (jobTrace garbage file) := by
  obtain ⟨total, reached⟩ := dispatchLoop_total garbage file
  rw [dispatchLoop_eq _ reached, reached]

/-- **One iteration of the trace.** -/
theorem jobTrace_step (step : jobStep garbage file = some (trace, rest)) :
    jobTrace garbage file = trace.append (jobTrace garbage rest) := by
  refine dispatchLoop_eq (rest.length + 2) ?_
  rw [dispatchLoop, step]
  exact congrArg (Option.map _) (dispatchLoop_jobTrace garbage rest)

/-- A run of `run_job` that returns has made the calls of the trace, up to the first that faults. -/
theorem runJob_jobTrace {around : Surroundings} {iterations : ℕ} {job : JobState}
    {result : Except Fault JobState}
    (ran : runJob around garbage iterations file job = some result) :
    runDispatches around (jobTrace garbage file).dispatched job = result := by
  induction iterations generalizing file job with
  | zero => cases ran
  | succ iterations ih =>
    rw [runJob] at ran
    cases step : jobStep garbage file with
    | none =>
      rw [step] at ran
      rw [jobStep_eq_none.mp step]
      exact Option.some.inj ran
    | some stepped =>
      obtain ⟨first, rest⟩ := stepped
      rw [step] at ran
      rw [jobTrace_step step]
      show runDispatches around (first.dispatched ++ (jobTrace garbage rest).dispatched) job = _
      rw [runDispatches_append]
      dsimp only at ran
      cases called : runDispatches around first.dispatched job with
      | error fault =>
        rw [called] at ran
        exact Option.some.inj ran
      | ok job =>
        rw [called] at ran
        exact ih ran

/-- An iteration that does not read past the end does the same in front of more bytes. -/
theorem jobStep_append (step : jobStep garbage file = some (trace, rest))
    (full : trace.overran = false) (later : List Byte) :
    jobStep garbage (file ++ later) = some (trace, rest ++ later) := by
  cases file with
  | nil => cases step
  | cons ch file =>
    obtain ⟨dispatched, given, equal⟩ := Option.map_eq_some_iff.mp step
    cases equal
    have framed := (regular_dispatchAfter garbage ch).frame file later
      (by rw [← nextDispatch_cons]; exact full)
    rw [jobStep, List.cons_append, nextDispatch_cons, framed, ← nextDispatch_cons]
    simp only [given, Option.map_some]
    rw [show (nextDispatch garbage (ch :: file)).hitEnd = false from full]

/-- **The frame rule of runs.** A file that is not read past its end is dispatched the same way in
front of any other file, and the other file as if it stood alone. -/
theorem jobTrace_append (full : (jobTrace garbage file).overran = false) (later : List Byte) :
    jobTrace garbage (file ++ later) = (jobTrace garbage file).append (jobTrace garbage later) := by
  induction bytes : file.length using Nat.strong_induction_on generalizing file with
  | _ size ih =>
    cases step : jobStep garbage file with
    | none =>
      rw [jobStep_eq_none.mp step]
      rfl
    | some stepped =>
      obtain ⟨first, rest⟩ := stepped
      rw [jobTrace_step step] at full ⊢
      obtain ⟨firstFull, restFull⟩ := Bool.or_eq_false_iff.mp full
      rw [jobTrace_step (jobStep_append step firstFull later),
        ih rest.length (bytes ▸ jobStep_shorter step) restFull rfl, Trace.append_assoc]

end Kvs.Server
