/-
**What `run_job` serves of what it parses.**

`run_job` parses a command and makes its store call before it parses the next one. A call that names
a key without a bucket accesses the table outside its array and is the last thing the run does, so
of the dispatches a file has it serves those up to the first of that kind (`served`).

`runJobNoted` is `runJob` with the dispatches it begins noted beside how it ends; it also ends where
the parser overruns a buffer. `runJobNoted_eq` gives both from the trace of a file that overruns
none.
-/

import Kvs.Job.Trace
import Kvs.Store.Buckets

namespace Kvs.Server

/-! ### The accesses of a job -/

/-- The keys of a command. -/
def Dispatch.keys : Dispatch → List CStr
  | .write pairs => pairs.map Prod.fst
  | .read keys => keys
  | .delete keys => keys
  | .show | .wait _ | .backup | .help | .invalid => []

theorem accesses_storeCall (shared : Shared) (forks : Bool) (job : JobState) (dispatch : Dispatch) :
    Accesses dispatch.keys (storeCall shared forks job dispatch) := by
  cases dispatch with
  | write pairs => exact accesses_map (accesses_kvsWrite pairs shared) fun _ => accesses_pure _
  | read keys => exact accesses_map (accesses_kvsRead keys shared) fun _ => accesses_pure _
  | delete keys => exact accesses_map (accesses_kvsDelete keys shared) fun _ => accesses_pure _
  | «show» => exact accesses_pure _
  | wait delay => exact accesses_pure _
  | backup => exact accesses_pure _
  | help => exact accesses_pure _
  | invalid => exact accesses_pure _

theorem accesses_runDispatch (around : Surroundings) (dispatch : Dispatch) (job : JobState) :
    Accesses dispatch.keys (runDispatch around dispatch job) :=
  accesses_map (accesses_storeCall _ _ job dispatch) fun _ => accesses_pure _

theorem accesses_runDispatches (around : Surroundings) (dispatches : List Dispatch)
    (job : JobState) :
    Accesses (dispatches.flatMap Dispatch.keys) (runDispatches around dispatches job) := by
  induction dispatches generalizing job with
  | nil => exact accesses_pure job
  | cons dispatch dispatches ih =>
    exact accesses_bind (accesses_runDispatch around dispatch job) fun job => ih job

/-! ### Up to the first key without a bucket -/

/-- Every key of the command has a bucket. -/
def Dispatch.Placed (dispatch : Dispatch) : Prop := ∀ key ∈ dispatch.keys, startsAlnum key

instance (dispatch : Dispatch) : Decidable dispatch.Placed :=
  inferInstanceAs (Decidable (∀ key ∈ dispatch.keys, startsAlnum key))

/-- The dispatches that are served. -/
def served : List Dispatch → List Dispatch
  | [] => []
  | dispatch :: dispatches => if dispatch.Placed then dispatch :: served dispatches else [dispatch]

theorem served_of_placed {dispatches : List Dispatch}
    (placed : ∀ dispatch ∈ dispatches, dispatch.Placed) (later : List Dispatch) :
    served (dispatches ++ later) = dispatches ++ served later := by
  induction dispatches with
  | nil => rfl
  | cons dispatch dispatches ih =>
    rw [List.cons_append, served, if_pos (placed dispatch List.mem_cons_self),
      ih fun other member => placed other (List.mem_cons_of_mem _ member)]
    rfl

/-- All dispatches are served when all have their keys placed. -/
theorem served_eq {dispatches : List Dispatch} (placed : ∀ dispatch ∈ dispatches, dispatch.Placed) :
    served dispatches = dispatches := by
  have whole := served_of_placed placed []
  rwa [List.append_nil, served, List.append_nil] at whole

/-- A dispatch whose keys are not placed is the last one. -/
theorem served_of_unplaced {dispatch : Dispatch} (unplaced : ¬ dispatch.Placed)
    (later : List Dispatch) : served (dispatch :: later) = [dispatch] :=
  if_neg unplaced

/-! ### The run with its notes -/

/-- `run_job` with the calls made, the dispatches it begins and how it ends; none when it has not
returned within the given iterations. -/
def runJobNoted (around : Surroundings) (garbage : List Byte) :
    ℕ → List Byte → JobState → Option (List Dispatch × Except Fault JobState)
  | 0, _, _ => none
  | iterations + 1, file, job =>
    match jobStep garbage file with
    | none => some ([], .ok job)
    | some (trace, rest) =>
      if trace.overflow then some ([], .error .buffer)
      else match runDispatches around trace.dispatched job with
      | .error fault => some (trace.dispatched, .error fault)
      | .ok job => (runJobNoted around garbage iterations rest job).map fun (later, ended) =>
          (trace.dispatched ++ later, ended)

/-- An iteration dispatches nothing or one command. -/
theorem jobStep_dispatched {garbage file rest : List Byte} {trace : Trace}
    (step : jobStep garbage file = some (trace, rest)) :
    trace.dispatched = [] ∨ ∃ dispatch, trace.dispatched = [dispatch] := by
  obtain ⟨dispatched, _, equal⟩ := Option.map_eq_some_iff.mp step
  cases equal
  cases dispatched with
  | none => exact .inl rfl
  | some dispatch => exact .inr ⟨dispatch, rfl⟩

/-- **`run_job` begins the dispatches that are served**, and ends as their calls do. -/
theorem runJobNoted_eq {garbage file : List Byte} {iterations : ℕ} {trace : Trace}
    (looped : dispatchLoop garbage iterations file = some trace) (fits : trace.overflow = false)
    (around : Surroundings) (job : JobState) :
    runJobNoted around garbage iterations file job =
      some (served trace.dispatched, runDispatches around trace.dispatched job) := by
  induction iterations generalizing file trace job with
  | zero => cases looped
  | succ iterations ih =>
    rw [dispatchLoop] at looped
    rw [runJobNoted]
    cases step : jobStep garbage file with
    | none =>
      rw [step] at looped
      cases looped
      rfl
    | some stepped =>
      obtain ⟨first, rest⟩ := stepped
      rw [step] at looped
      obtain ⟨later, loopedLater, appended⟩ := Option.map_eq_some_iff.mp looped
      subst appended
      obtain ⟨firstFits, laterFits⟩ := Bool.or_eq_false_iff.mp fits
      have dispatched := jobStep_dispatched step
      dsimp only [Trace.append]
      rw [if_neg (by rw [firstFits]; exact Bool.false_ne_true), runDispatches_append]
      rcases dispatched with nothing | ⟨dispatch, one⟩
      · rw [nothing]
        dsimp only [runDispatches]
        rw [ih loopedLater laterFits job]
        rfl
      · rw [one]
        have alone : runDispatches around [dispatch] job = runDispatch around dispatch job := by
          show (runDispatch around dispatch job).bind _ = _
          cases runDispatch around dispatch job <;> rfl
        rw [alone]
        rcases accesses_runDispatch around dispatch job with
          ⟨placed, next, called⟩ | ⟨⟨key, member, other⟩, faulted⟩
        · rw [called]
          dsimp only
          rw [ih loopedLater laterFits next, List.singleton_append, served,
            if_pos (show dispatch.Placed from placed)]
          rfl
        · rw [faulted, List.singleton_append,
            served_of_unplaced fun placed => other (placed key member)]
          rfl

/-- **A file is served whole**, up to `EOC`, exactly when every key of its commands has a bucket;
its commands overrun no buffer. -/
theorem runJobNoted_whole_iff {garbage file : List Byte} {iterations : ℕ} {trace : Trace}
    (looped : dispatchLoop garbage iterations file = some trace) (fits : trace.overflow = false)
    (around : Surroundings) (job : JobState) :
    (∃ final, runJobNoted around garbage iterations file job =
        some (trace.dispatched, .ok final)) ↔
      ∀ dispatch ∈ trace.dispatched, dispatch.Placed := by
  rw [runJobNoted_eq looped fits around job]
  have accesses := accesses_runDispatches around trace.dispatched job
  constructor
  · rintro ⟨final, ended⟩ dispatch member key named
    by_contra other
    have faulted := accesses.fault (List.mem_flatMap.mpr ⟨dispatch, member, named⟩) other
    rw [faulted] at ended
    cases (Prod.mk.inj (Option.some.inj ended)).2
  · intro placed
    obtain ⟨final, ended⟩ := accesses.ok fun key member => by
      obtain ⟨dispatch, inside, named⟩ := List.mem_flatMap.mp member
      exact placed dispatch inside key named
    exact ⟨final, by rw [served_eq placed, ended]⟩

/-- A run that comes to an overrun buffer does not end well. -/
theorem runJobNoted_overrun {garbage file : List Byte} {iterations : ℕ} {trace : Trace}
    (looped : dispatchLoop garbage iterations file = some trace) (overrun : trace.overflow = true)
    (around : Surroundings) (job : JobState) :
    ∃ dispatches fault, runJobNoted around garbage iterations file job =
      some (dispatches, .error fault) := by
  induction iterations generalizing file trace job with
  | zero => cases looped
  | succ iterations ih =>
    rw [dispatchLoop] at looped
    rw [runJobNoted]
    cases step : jobStep garbage file with
    | none =>
      rw [step] at looped
      cases looped
      cases overrun
    | some stepped =>
      obtain ⟨first, rest⟩ := stepped
      rw [step] at looped
      obtain ⟨later, loopedLater, appended⟩ := Option.map_eq_some_iff.mp looped
      subst appended
      dsimp only
      by_cases here : first.overflow = true
      · exact ⟨[], .buffer, if_pos here⟩
      rw [if_neg here]
      cases called : runDispatches around first.dispatched job with
      | error fault => exact ⟨_, fault, rfl⟩
      | ok next =>
        obtain ⟨dispatches, fault, ended⟩ :=
          ih loopedLater ((Bool.or_eq_true_iff.mp overrun).resolve_left here) next
        exact ⟨_, fault, congrArg (Option.map _) ended⟩

/-- **A run ends well** exactly when no buffer is overrun and every key has a bucket; it has then
served the whole trace. -/
theorem runJobNoted_ok_iff (around : Surroundings) (garbage file : List Byte)
    (dispatches : List Dispatch) (job : JobState) :
    (∃ final, runJobNoted around garbage (file.length + 1) file job =
        some (dispatches, .ok final)) ↔
      (jobTrace garbage file).overflow = false ∧ (jobTrace garbage file).dispatched = dispatches ∧
        ∀ dispatch ∈ dispatches, dispatch.Placed := by
  have looped := dispatchLoop_jobTrace garbage file
  constructor
  · rintro ⟨final, ended⟩
    have fits : (jobTrace garbage file).overflow = false := by
      by_contra overrun
      obtain ⟨_, fault, failed⟩ :=
        runJobNoted_overrun looped (Bool.not_eq_false _ ▸ overrun) around job
      cases (Prod.mk.inj (Option.some.inj (ended.symm.trans failed))).2
    have noted := runJobNoted_eq looped fits around job
    obtain ⟨same, well⟩ := Prod.mk.inj (Option.some.inj (ended.symm.trans noted))
    have placed : ∀ dispatch ∈ (jobTrace garbage file).dispatched, dispatch.Placed := by
      intro dispatch member key named
      by_contra other
      have faulted := (accesses_runDispatches around (jobTrace garbage file).dispatched job).fault
        (List.mem_flatMap.mpr ⟨dispatch, member, named⟩) other
      cases well.trans faulted
    rw [served_eq placed] at same
    exact ⟨fits, same.symm, same ▸ placed⟩
  · rintro ⟨fits, rfl, placed⟩
    exact (runJobNoted_whole_iff looped fits around job).mpr placed

end Kvs.Server
