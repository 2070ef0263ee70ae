/-
**The job threads come to an end, and keep out of each other's files.**

`JobDirectory` says what the threads of `get_file` have run once all have ended. `jobs_settle` says
that they end: every schedule is short, a thread that waits for `directory_mutex` waits for one that
goes on, and when nobody can go on all threads have ended. So which jobs are run does not depend on
the schedule.

The paths of an accepted entry are its name with the directory in front and, for the output file,
the last four characters changed (`entryFiles_eq`). `outputs_own` reads off that no two jobs are
ever given one output file, at once or one after the other, and no job is given another's output as
its input.
-/

import Kvs.Concurrency.JobDirectory

set_option linter.unusedSectionVars false

namespace Kvs.Server

open JobThreads

/-- The files of the job a thread is about to run, or runs. -/
def GetFile.file : GetFile → Option JobFile
  | .unlocking file | .openingIn file | .openingOut file | .running file => some file
  | _ => none

theorem GetFile.inHand_of_file {point : GetFile} {job : JobFile} (has : point.file = some job) :
    point.inHand = some job.entry := by
  cases point <;> cases has <;> rfl

/-! ### The paths of an entry -/

/-- The last such character of a text is that of its last part, if there is one. -/
theorem strrchr_append {char : Byte} {back : List Byte} {place : ℕ}
    (found : strrchr back char = some place) (front : List Byte) :
    strrchr (front ++ back) char = some (front.length + place) := by
  induction front with
  | nil => rw [List.nil_append, found, List.length_nil, Nat.zero_add]
  | cons first front ih =>
    rw [List.cons_append, strrchr, ih, List.length_cons]
    exact congrArg some (by omega)

/-- **An accepted entry**: its name ends in `.job`, its input path is the directory and the name,
and its output path ends in `.out` instead; both fit their arrays with their NULs. -/
theorem entryFiles_eq {dir name : CStr} {inPath outPath : List Byte}
    (accepted : entryFiles dir name = some (inPath, outPath)) :
    ∃ stem, name.bytes = stem ++ jobSuffix ∧
      inPath = dir.bytes ++ ascii ['/'] ++ stem ++ jobSuffix ∧
      outPath = dir.bytes ++ ascii ['/'] ++ stem ++ outSuffix ∧
      inPath.length < maxJobFileNameSize ∧ outPath.length < maxJobFileNameSize := by
  rw [entryFiles] at accepted
  split at accepted
  · cases accepted
  rename_i dot found
  dsimp only at accepted
  split at accepted
  · cases accepted
  rename_i suffix
  split at accepted
  · cases accepted
  rename_i short
  cases accepted
  have isJob : name.bytes.drop dot = jobSuffix := by
    by_contra other
    exact suffix (.inr (.inr other))
  have split : name.bytes = name.bytes.take dot ++ jobSuffix := by
    rw [← isJob, List.take_append_drop]
  have path : dir.bytes ++ ascii ['/'] ++ name.bytes =
      dir.bytes ++ ascii ['/'] ++ name.bytes.take dot ++ jobSuffix := by
    rw [List.append_assoc _ (name.bytes.take dot), ← split]
  have dotted : strrchr jobSuffix '.'.toUInt8 = some 0 := by decide
  have out : withOutSuffix (dir.bytes ++ ascii ['/'] ++ name.bytes) =
      dir.bytes ++ ascii ['/'] ++ name.bytes.take dot ++ outSuffix := by
    rw [path, withOutSuffix, strrchr_append dotted]
    dsimp only
    rw [Nat.add_zero, List.take_left]
  have size : (dir.bytes ++ ascii ['/'] ++ name.bytes).length = dir.length + 1 + name.length := by
    rw [List.length_append, List.length_append]
    rfl
  have outSize : (dir.bytes ++ ascii ['/'] ++ name.bytes.take dot ++ outSuffix).length =
      (dir.bytes ++ ascii ['/'] ++ name.bytes.take dot ++ jobSuffix).length := by
    simp only [List.length_append, outSuffix, jobSuffix, ascii, List.length_map,
      List.length_cons]
  refine ⟨name.bytes.take dot, split, path, out, by omega, ?_⟩
  rw [out, outSize, ← path]
  omega

/-! ### The files of a directory -/

variable {directory : JobDirectory} {entry entry' : ℕ} {file file' : JobFile}

/-- What the paths of a job are made of. -/
theorem files_eq (found : directory.files entry = some file) :
    ∃ name stem, directory.listing[entry]? = some name ∧
      name.bytes = stem ++ jobSuffix ∧
      file.inPath = directory.dir.bytes ++ ascii ['/'] ++ stem ++ jobSuffix ∧
      file.outPath = directory.dir.bytes ++ ascii ['/'] ++ stem ++ outSuffix ∧
      file.inPath.length < maxJobFileNameSize ∧ file.outPath.length < maxJobFileNameSize := by
  obtain ⟨name, listed, mapped⟩ := Option.bind_eq_some_iff.mp found
  obtain ⟨⟨inPath, outPath⟩, accepted, rfl⟩ := Option.map_eq_some_iff.mp mapped
  obtain ⟨stem, split, parts⟩ := entryFiles_eq accepted
  exact ⟨name, stem, listed, split, parts⟩

/-- No output file is an input file. -/
theorem outPath_ne_inPath (found : directory.files entry = some file)
    (found' : directory.files entry' = some file') : file.outPath ≠ file'.inPath := by
  obtain ⟨_, stem, _, _, _, out, _⟩ := files_eq found
  obtain ⟨_, stem', _, _, path, _⟩ := files_eq found'
  rw [out, path]
  intro same
  have suffixes := (List.append_inj' same rfl).2
  exact absurd suffixes (by decide)

/-- **Two entries have two output files**, and two input files. -/
theorem entry_of_outPath (distinct : directory.listing.Nodup)
    (found : directory.files entry = some file) (found' : directory.files entry' = some file')
    (same : file.outPath = file'.outPath) : entry = entry' := by
  obtain ⟨name, stem, listed, split, _, out, _⟩ := files_eq found
  obtain ⟨name', stem', listed', split', _, out', _⟩ := files_eq found'
  rw [out, out'] at same
  have stems : stem = stem' := List.append_cancel_left (List.append_cancel_right same)
  have names : name = name' := CStr.ext (by rw [split, split', stems])
  subst names
  obtain ⟨inside, _⟩ := List.getElem?_eq_some_iff.mp listed
  exact (List.getElem?_inj inside distinct).mp (listed.trans listed'.symm)

/-! ### Who has which files -/

variable {τ : Type} {state next : JobThreads τ} {thread : τ}

/-- The files in a thread's hands are those of its entry. -/
def Named (directory : JobDirectory) (state : JobThreads τ) : Prop :=
  ∀ thread file, (state.threads thread).file = some file →
    directory.files file.entry = some file

variable [DecidableEq τ]

/-- A thread that moves on with the same files, or with none. -/
theorem Named.update (named : Named directory state) {point : GetFile}
    (files : ∀ file, point.file = some file → directory.files file.entry = some file) :
    ∀ other file, (Function.update state.threads thread point other).file = some file →
      directory.files file.entry = some file :=
  (Function.forall_update_iff state.threads fun _ point => ∀ file, point.file = some file →
    directory.files file.entry = some file).mpr ⟨files, fun other _ => named other⟩

theorem step_named (named : Named directory state)
    (fired : step directory thread state = some next) : Named directory next := by
  have here := named thread
  have none : ∀ file, (none : Option JobFile) = some file →
      directory.files file.entry = some file := nofun
  rw [step] at fired
  cases point : state.threads thread with
  | locking =>
    simp only [point] at fired
    split at fired <;> cases fired
    exact named.update none
  | reading =>
    simp only [point] at fired
    split at fired
    · cases fired
      exact named.update none
    rename_i name listed
    split at fired
    · cases fired
      exact named
    · rename_i inPath outPath accepted
      cases fired
      refine named.update fun file same => ?_
      cases same
      rw [JobDirectory.files, listed, Option.bind_some, accepted]
      rfl
  | unlocking file =>
    simp only [point] at fired
    cases fired
    rw [point] at here
    exact named.update here
  | openingIn file =>
    simp only [point] at fired
    rw [point] at here
    split at fired <;> cases fired
    · exact named.update here
    · exact named.update none
  | openingOut file =>
    simp only [point] at fired
    rw [point] at here
    split at fired <;> cases fired
    · exact named.update here
    · exact named.update none
  | running file =>
    simp only [point] at fired
    cases fired
    exact named.update none
  | unlockingLast =>
    simp only [point] at fired
    cases fired
    exact named.update none
  | ended lost =>
    simp only [point] at fired
    cases fired

theorem start_named : Named directory (start : JobThreads τ) := fun _ _ has => nomatch has

/-! ### The lock -/

/-- A thread here holds `directory_mutex`, and can go on. -/
def GetFile.inside : GetFile → Bool
  | .reading | .unlocking _ | .unlockingLast => true
  | _ => false

/-- Only a thread that can go on holds the lock. -/
def Held (state : JobThreads τ) : Prop :=
  ∀ thread, state.holder = some thread → (state.threads thread).inside = true

/-- The holder stays, or it moves on within its section. -/
theorem Held.update (held : Held state) {point : GetFile}
    (self : state.holder = some thread → point.inside = true) :
    ∀ other, state.holder = some other →
      (Function.update state.threads thread point other).inside = true := by
  intro other holds
  by_cases same : other = thread
  · subst same
    rw [Function.update_self]
    exact self holds
  · rw [Function.update_of_ne same]
    exact held other holds

theorem step_held (held : Held state) (fired : step directory thread state = some next) :
    Held next := by
  have outside : (state.threads thread).inside = false → state.holder ≠ some thread :=
    fun point holds => Bool.false_ne_true (point.symm.trans (held thread holds))
  rw [step] at fired
  cases point : state.threads thread with
  | locking =>
    simp only [point] at fired
    split at fired <;> cases fired
    rintro _ ⟨⟩
    show (Function.update state.threads thread .reading thread).inside = true
    rw [Function.update_self]
    rfl
  | reading =>
    simp only [point] at fired
    split at fired
    · cases fired
      exact held.update fun _ => rfl
    split at fired
    · cases fired
      exact held
    · cases fired
      exact held.update fun _ => rfl
  | unlocking | unlockingLast =>
    simp only [point] at fired
    cases fired
    exact nofun
  | openingIn | openingOut =>
    simp only [point] at fired
    rw [point] at outside
    split at fired <;> cases fired <;> exact held.update fun holds => absurd holds (outside rfl)
  | running =>
    simp only [point] at fired
    cases fired
    rw [point] at outside
    exact held.update fun holds => absurd holds (outside rfl)
  | ended =>
    simp only [point] at fired
    cases fired

theorem start_held : Held (start : JobThreads τ) := nofun

variable (directory) in
/-- A thread inside can take its step. -/
theorem step_inside (inside : (state.threads thread).inside = true) :
    (step directory thread state).isSome := by
  rw [step]
  cases point : state.threads thread with
  | reading =>
    dsimp only
    split
    · rfl
    · split <;> rfl
  | unlocking | unlockingLast => rfl
  | _ =>
    rw [point] at inside
    cases inside

/-- **When nobody can go on** all threads have ended. -/
theorem ended_of_stuck (held : Held state) (stuck : ∀ thread, step directory thread state = none) :
    state.Ended := by
  have free : state.holder = none := by
    by_contra holds
    obtain ⟨holder, same⟩ := Option.ne_none_iff_exists'.mp holds
    have goes := step_inside directory (held holder same)
    rw [stuck holder] at goes
    cases goes
  intro thread
  have here := stuck thread
  rw [step] at here
  cases point : state.threads thread with
  | ended lost => rfl
  | locking =>
    simp only [point, free, if_true] at here
    cases here
  | reading | unlocking | unlockingLast =>
    have inside : (state.threads thread).inside = true := by rw [point]; rfl
    have goes := step_inside directory inside
    rw [stuck thread] at goes
    cases goes
  | openingIn file | openingOut file =>
    simp only [point] at here
    split at here <;> cases here
  | running file =>
    simp only [point] at here
    cases here

/-! ### Every schedule is short -/

/-- The steps of a thread that reads no more entries. -/
def GetFile.left : GetFile → ℕ
  | .ended _ => 0
  | .unlockingLast => 1
  | .reading => 2
  | .locking => 3
  | .running _ => 4
  | .openingOut _ => 5
  | .openingIn _ => 6
  | .unlocking _ => 7

variable [Fintype τ]

/-- The steps to come: a thread that reads an entry has six more until it reads again. -/
def JobThreads.left (directory : JobDirectory) (state : JobThreads τ) : ℕ :=
  6 * (directory.listing.length - state.reads.length) +
    ∑ thread, (state.threads thread).left

theorem start_left : (start : JobThreads τ).left directory =
    6 * directory.listing.length + 3 * Fintype.card τ := by
  have threads : ∑ _ : τ, GetFile.locking.left = 3 * Fintype.card τ := by
    rw [Finset.sum_const, Finset.card_univ, smul_eq_mul, Nat.mul_comm]
    rfl
  rw [JobThreads.left, start]
  dsimp only
  rw [threads]
  rfl

/-- A thread that moves on without reading. -/
theorem left_moved {point : GetFile} (holder : Option τ) (ran : List (τ × ℕ))
    (less : point.left < (state.threads thread).left) :
    JobThreads.left directory
        ⟨holder, state.reads, Function.update state.threads thread point, ran⟩ <
      state.left directory := by
  have sums := Interleaving.sum_update (fun _ => GetFile.left) state.threads thread point
  simp only [JobThreads.left] at sums ⊢
  omega

/-- **Every step** leaves fewer. -/
theorem step_left (fired : step directory thread state = some next) :
    next.left directory < state.left directory := by
  rw [step] at fired
  cases point : state.threads thread with
  | locking =>
    simp only [point] at fired
    split at fired <;> cases fired
    exact left_moved _ _ (by rw [point]; exact Nat.lt_succ_self _)
  | reading =>
    simp only [point] at fired
    split at fired
    · cases fired
      exact left_moved _ _ (by rw [point]; exact Nat.lt_succ_self _)
    rename_i name listed
    have inside := (List.getElem?_eq_some_iff.mp listed).1
    split at fired
    · cases fired
      simp only [JobThreads.left, List.length_append, List.length_singleton]
      omega
    · rename_i inPath outPath _
      cases fired
      have sums := Interleaving.sum_update (fun _ => GetFile.left) state.threads thread
        (.unlocking ⟨state.reads.length, inPath, outPath⟩)
      rw [point] at sums
      simp only [JobThreads.left, GetFile.left, List.length_append, List.length_singleton]
        at sums ⊢
      omega
  | openingIn | openingOut =>
    simp only [point] at fired
    split at fired <;> cases fired
    · exact left_moved _ _ (by rw [point]; exact Nat.lt_succ_self _)
    · exact left_moved _ _ (by rw [point]; exact Nat.succ_pos _)
  | unlocking | running | unlockingLast =>
    simp only [point] at fired
    cases fired
    exact left_moved _ _ (by rw [point]; exact Nat.lt_succ_self _)
  | ended =>
    simp only [point] at fired
    cases fired

/-! ### Whole runs -/

/-- What every step keeps. -/
structure Pooled (directory : JobDirectory) (state : JobThreads τ) : Prop where
  accounted : Accounted directory state
  named : Named directory state
  held : Held state

theorem run_pooled {turns : List τ}
    (ran : Interleaving.run (step directory) turns start = some state) :
    Pooled directory state :=
  Interleaving.run_keeps (fun _ _ _ pooled fired => ⟨step_accounted pooled.accounted fired,
    step_named pooled.named fired, step_held pooled.held fired⟩)
    ⟨start_accounted, start_named, start_held⟩ ran

/-- **The job threads come to an end**, in every schedule, and then an entry has been run, once, if
it is accepted, its files can be opened and fewer entries that cannot be opened come before it than
there are threads; no other entry has been run. -/
theorem jobs_settle (directory : JobDirectory) (turns : List τ) (final : JobThreads τ)
    (ran : Interleaving.run (step directory) turns start = some final) :
    turns.length ≤ 6 * directory.listing.length + 3 * Fintype.card τ ∧
    ((∀ thread, step directory thread final = none) → final.Ended ∧ ∀ entry,
      final.runs entry = if directory.Openable entry ∧
        (unopenableBefore directory entry).length < Fintype.card τ then 1 else 0) := by
  have pooled := run_pooled ran
  constructor
  · have bound := Interleaving.run_length (fun _ _ _ => step_left) ran
    rw [start_left] at bound
    omega
  · intro stuck
    have ended := ended_of_stuck pooled.held stuck
    refine ⟨ended, fun entry => ?_⟩
    split
    · rename_i runs
      exact pooled.accounted.runs_eq_one_iff.mpr
        (pooled.accounted.run_of_few ended runs.1 runs.2)
    · rename_i stays
      have atMost := pooled.accounted.runs_le_one entry
      have notOne : final.runs entry ≠ 1 := fun one => by
        obtain ⟨thread, member⟩ := pooled.accounted.runs_eq_one_iff.mp one
        exact stays ⟨(pooled.accounted.ran thread entry member).2,
          pooled.accounted.few_before member⟩
      omega

/-- **Every job has its files to itself.** In every interleaving a thread's output file is no other
thread's output or input file, nor that of a job that was run before. -/
theorem outputs_own (directory : JobDirectory) (distinct : directory.listing.Nodup)
    (turns : List τ) (state : JobThreads τ)
    (ran : Interleaving.run (step directory) turns start = some state) (thread : τ)
    (file : JobFile) (has : (state.threads thread).file = some file) :
    (file.inPath.length < maxJobFileNameSize ∧ file.outPath.length < maxJobFileNameSize) ∧
    (∀ other otherFile, other ≠ thread → (state.threads other).file = some otherFile →
      file.outPath ≠ otherFile.outPath ∧ file.outPath ≠ otherFile.inPath) ∧
    ∀ other entry earlier, (other, entry) ∈ state.ran → directory.files entry = some earlier →
      file.outPath ≠ earlier.outPath ∧ file.outPath ≠ earlier.inPath := by
  have pooled := run_pooled ran
  have found := pooled.named thread file has
  have held := pooled.accounted.held thread file.entry (GetFile.inHand_of_file has)
  refine ⟨?_, fun other otherFile different hasOther => ?_,
    fun other entry earlier member foundEarlier => ?_⟩
  · obtain ⟨_, _, _, _, _, _, fits⟩ := files_eq found
    exact fits
  · have foundOther := pooled.named other otherFile hasOther
    have heldOther := pooled.accounted.held other otherFile.entry
      (GetFile.inHand_of_file hasOther)
    refine ⟨fun same => different ?_, outPath_ne_inPath found foundOther⟩
    have entries := entry_of_outPath distinct found foundOther same
    rw [← entries, held.1] at heldOther
    exact (Option.some.inj heldOther.1).symm
  · refine ⟨fun same => ?_, outPath_ne_inPath found foundEarlier⟩
    obtain rfl := entry_of_outPath distinct found foundEarlier same
    have read := (pooled.accounted.ran other file.entry member).1
    obtain rfl := Option.some.inj (held.1.symm.trans read)
    exact absurd (held.2 file.entry member) (lt_irrefl _)

/-! ### Two threads -/

/-- Both threads of `brokenFirst` run to their ends, the second one with the job that can be
opened. -/
theorem jobs_settle_brokenFirst : ∃ final,
    Interleaving.run (step brokenFirst) [0, 0, 0, 0, 1, 1, 1, 1, 1, 1, 1, 1, 1]
        (start : JobThreads (Fin 2)) = some final ∧
      final.Ended ∧ final.runs 0 = 0 ∧ final.runs 1 = 1 := by
  have ran := (Option.some_get brokenFirst_two_threads).symm
  obtain ⟨ended, runs⟩ := (jobs_settle brokenFirst _ _ ran).2 (by decide)
  exact ⟨_, ran, ended, runs 0, runs 1⟩

/-- The jobs `a.job` and `b.job`, both to be opened. -/
def bothOpen : JobDirectory := { brokenFirst with opensIn := fun _ => true }

/-- Each thread has one of them. -/
theorem bothOpen_two_threads :
    (Interleaving.run (step bothOpen) [0, 0, 0, 1, 1, 1] (start : JobThreads (Fin 2))).isSome := by
  decide

theorem outputs_own_bothOpen : ∃ state,
    Interleaving.run (step bothOpen) [0, 0, 0, 1, 1, 1] (start : JobThreads (Fin 2)) =
        some state ∧
      ∀ otherFile, (state.threads 1).file = some otherFile →
        ascii ['d', '/', 'a', '.', 'o', 'u', 't'] ≠ otherFile.outPath := by
  have ran := (Option.some_get bothOpen_two_threads).symm
  refine ⟨_, ran, fun otherFile has => ?_⟩
  exact ((outputs_own bothOpen (by decide) _ _ ran 0
    ⟨0, ascii ['d', '/', 'a'] ++ jobSuffix, ascii ['d', '/', 'a', '.', 'o', 'u', 't']⟩
    (by decide)).2.1 1 otherFile (by decide) has).1

end Kvs.Server
