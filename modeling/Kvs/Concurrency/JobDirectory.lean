/-
**Which job files are run.**

The threads of `get_file` share one directory stream. `Accounted` is what holds in every
interleaving: an accepted entry that has been read is either run, once, by the thread that read it,
or still in that thread's hands; a thread that could not open a file of its entry keeps it for good,
since it has ended.

A thread is lost with every entry that is accepted and cannot be opened. `runs_all_iff` says what
this comes to: an entry is run exactly when fewer such entries than there are threads stand before
it. The failed opens of the worker threads (`client_thread`) skip to the next client instead.
-/

import Kvs.Server.JobDirectory

set_option linter.unusedSectionVars false

namespace Kvs.Server

open JobThreads

/-! ### What the threads have in their hands -/

/-- The entry a thread has in its hands. -/
def GetFile.inHand : GetFile → Option ℕ
  | .unlocking file | .openingIn file | .openingOut file | .running file => some file.entry
  | .ended lost => lost
  | .locking | .reading | .unlockingLast => none

/-- What a thread knows where it stands, once so many entries are read. -/
def GetFile.Justified (directory : JobDirectory) (position : ℕ) : GetFile → Prop
  | .unlocking file | .openingIn file => directory.files file.entry = some file
  | .openingOut file =>
    directory.files file.entry = some file ∧ directory.opensIn file.inPath = true
  | .running file => directory.Openable file.entry
  | .unlockingLast | .ended none => directory.listing.length ≤ position
  | .ended (some entry) => directory.Unopenable entry
  | .locking | .reading => True

theorem GetFile.hasEnded_iff {point : GetFile} :
    point.hasEnded = true ↔ ∃ lost, point = .ended lost := by
  cases point <;> simp [GetFile.hasEnded]

theorem JobDirectory.not_openable {directory : JobDirectory} {entry : ℕ}
    (unopenable : directory.Unopenable entry) : ¬ directory.Openable entry := by
  unfold JobDirectory.Openable JobDirectory.Unopenable at *
  cases found : directory.files entry with
  | none => simp
  | some file => simp_all

theorem JobDirectory.listed {directory : JobDirectory} {entry : ℕ} {file : JobFile}
    (found : directory.files entry = some file) : entry < directory.listing.length := by
  obtain ⟨name, listed, -⟩ := Option.bind_eq_some_iff.mp found
  exact (List.getElem?_eq_some_iff.mp listed).1

variable {τ : Type} {directory : JobDirectory} {state next : JobThreads τ} {thread : τ}

/-- Every accepted entry read is run once by its reader or in its reader's hands, and a reader has
run nothing it read later. -/
structure Accounted (directory : JobDirectory) (state : JobThreads τ) : Prop where
  justified : ∀ thread, (state.threads thread).Justified directory state.reads.length
  held : ∀ thread entry, (state.threads thread).inHand = some entry →
    state.reads[entry]? = some thread ∧ ∀ earlier, (thread, earlier) ∈ state.ran → earlier < entry
  ran : ∀ thread entry, (thread, entry) ∈ state.ran →
    state.reads[entry]? = some thread ∧ directory.Openable entry
  nodup : state.ran.Nodup
  read : ∀ thread entry, state.reads[entry]? = some thread → (directory.files entry).isSome →
    (thread, entry) ∈ state.ran ∨ (state.threads thread).inHand = some entry

theorem start_accounted : Accounted directory (start : JobThreads τ) where
  justified _ := trivial
  held _ _ none := by cases none
  ran _ _ member := absurd member List.not_mem_nil
  nodup := List.nodup_nil
  read _ _ read := by cases read

variable [DecidableEq τ]

/-- A thread that moves on with the same entry in its hands. -/
theorem Accounted.move (accounted : Accounted directory state) {point : GetFile}
    (holder : Option τ) (same : point.inHand = (state.threads thread).inHand)
    (justified : point.Justified directory state.reads.length) :
    Accounted directory
      { state with holder := holder, threads := Function.update state.threads thread point } := by
  have hands : ∀ other, ((Function.update state.threads thread point) other).inHand =
      (state.threads other).inHand :=
    (Function.forall_update_iff state.threads fun other point =>
      point.inHand = (state.threads other).inHand).mpr ⟨same, fun _ _ => rfl⟩
  refine ⟨?_, fun other entry holds => accounted.held other entry ((hands other).symm.trans holds),
    accounted.ran, accounted.nodup, fun other entry read accepted => ?_⟩
  · exact (Function.forall_update_iff state.threads fun _ point =>
      point.Justified directory state.reads.length).mpr
        ⟨justified, fun other _ => accounted.justified other⟩
  · exact (accounted.read other entry read accepted).imp_right (hands other).trans

/-- More entries read make no thread wrong. -/
theorem GetFile.Justified.mono {position position' : ℕ} {point : GetFile}
    (justified : point.Justified directory position) (further : position ≤ position') :
    point.Justified directory position' := by
  cases point with
  | unlockingLast => exact le_trans justified further
  | ended lost =>
    cases lost with
    | none => exact le_trans justified further
    | some entry => exact justified
  | _ => exact justified

/-- **An entry is read.** -/
theorem Accounted.read_entry (accounted : Accounted directory state) (point : GetFile)
    (empty : (state.threads thread).inHand = none)
    (taken : point.inHand = if (directory.files state.reads.length).isSome
      then some state.reads.length else none)
    (justified : point.Justified directory (state.reads.length + 1)) :
    Accounted directory { state with
      reads := state.reads ++ [thread]
      threads := Function.update state.threads thread point } := by
  have before : ∀ {entry : ℕ} {other : τ}, state.reads[entry]? = some other →
      (state.reads ++ [thread])[entry]? = some other := by
    intro entry other read
    rw [List.getElem?_append_left (List.getElem?_eq_some_iff.mp read).1]
    exact read
  refine ⟨fun other => ?_, fun other entry holds => ?_, fun other entry member => ?_,
    accounted.nodup, fun other entry read accepted => ?_⟩
  · show (Function.update state.threads thread point other).Justified directory
      (state.reads ++ [thread]).length
    rw [List.length_append, List.length_singleton]
    by_cases self : other = thread
    · subst self
      rwa [Function.update_self]
    · rw [Function.update_of_ne self]
      exact (accounted.justified other).mono (Nat.le_succ _)
  · change (Function.update state.threads thread point other).inHand = some entry at holds
    by_cases self : other = thread
    · subst self
      rw [Function.update_self, taken] at holds
      split at holds
      · cases holds
        refine ⟨by simp, fun earlier member => ?_⟩
        exact (List.getElem?_eq_some_iff.mp (accounted.ran other earlier member).1).1
      · cases holds
    · rw [Function.update_of_ne self] at holds
      obtain ⟨read, later⟩ := accounted.held other entry holds
      exact ⟨before read, later⟩
  · obtain ⟨read, openable⟩ := accounted.ran other entry member
    exact ⟨before read, openable⟩
  · by_cases last : entry = state.reads.length
    · subst last
      obtain rfl : thread = other := by simpa using read
      right
      show (Function.update state.threads thread point thread).inHand = _
      rw [Function.update_self, taken, if_pos accepted]
    · have inside : entry < state.reads.length := by
        have bound := (List.getElem?_eq_some_iff.mp read).1
        rw [List.length_append, List.length_singleton] at bound
        omega
      change (state.reads ++ [thread])[entry]? = some other at read
      rw [List.getElem?_append_left inside] at read
      rcases accounted.read other entry read accepted with member | holds
      · exact Or.inl member
      · right
        have self : other ≠ thread := by
          rintro rfl
          rw [empty] at holds
          cases holds
        show (Function.update state.threads thread point other).inHand = _
        rw [Function.update_of_ne self, holds]

/-- **A job is run.** -/
theorem Accounted.run_entry (accounted : Accounted directory state) {file : JobFile}
    (point : state.threads thread = .running file) :
    Accounted directory { state with
      threads := Function.update state.threads thread .locking
      ran := state.ran ++ [(thread, file.entry)] } := by
  have holds : (state.threads thread).inHand = some file.entry := by rw [point]; rfl
  have openable : directory.Openable file.entry := by
    have justified := accounted.justified thread
    rwa [point] at justified
  obtain ⟨read, later⟩ := accounted.held thread file.entry holds
  refine ⟨fun other => ?_, fun other entry held => ?_, fun other entry member => ?_, ?_,
    fun other entry got accepted => ?_⟩
  · exact (Function.forall_update_iff state.threads fun _ point =>
      point.Justified directory state.reads.length).mpr
        ⟨show GetFile.locking.Justified directory _ from trivial,
          fun other _ => accounted.justified other⟩ other
  · change (Function.update state.threads thread .locking other).inHand = some entry at held
    by_cases self : other = thread
    · subst self
      rw [Function.update_self] at held
      cases held
    · rw [Function.update_of_ne self] at held
      obtain ⟨read', later'⟩ := accounted.held other entry held
      refine ⟨read', fun earlier member => ?_⟩
      rcases List.mem_append.mp member with member | member
      · exact later' earlier member
      · cases List.mem_singleton.mp member
        exact absurd rfl self
  · rcases List.mem_append.mp member with member | member
    · exact accounted.ran other entry member
    · cases List.mem_singleton.mp member
      exact ⟨read, openable⟩
  · refine List.Nodup.append accounted.nodup (List.nodup_singleton _) ?_
    rintro pair member again
    cases List.mem_singleton.mp again
    exact absurd (later file.entry member) (lt_irrefl _)
  · rcases accounted.read other entry got accepted with member | held
    · exact Or.inl (List.mem_append_left _ member)
    · by_cases self : other = thread
      · subst self
        rw [holds] at held
        cases held
        exact Or.inl (List.mem_append_right _ (List.mem_singleton_self _))
      · right
        show (Function.update state.threads thread .locking other).inHand = _
        rw [Function.update_of_ne self, held]

/-- **The step lemma.** -/
theorem step_accounted (accounted : Accounted directory state)
    (fired : step directory thread state = some next) : Accounted directory next := by
  have justified := accounted.justified thread
  unfold step at fired
  cases point : state.threads thread with
  | locking =>
    simp only [point] at fired
    split at fired
    · cases fired
      exact accounted.move _ (by rw [point]; rfl) trivial
    · cases fired
  | reading =>
    simp only [point] at fired
    have empty : (state.threads thread).inHand = none := by rw [point]; rfl
    split at fired
    · rename_i atEnd
      cases fired
      exact accounted.move state.holder empty.symm (List.getElem?_eq_none_iff.mp atEnd)
    · rename_i name listed
      split at fired
      · rename_i refused
        have files : directory.files state.reads.length = none := by
          simp [JobDirectory.files, listed, refused]
        cases fired
        have kept := accounted.read_entry .reading empty (by rw [files]; rfl) trivial
        rwa [← point, Function.update_eq_self] at kept
      · rename_i inPath outPath accepted
        have files : directory.files state.reads.length =
            some ⟨state.reads.length, inPath, outPath⟩ := by
          simp [JobDirectory.files, listed, accepted]
        cases fired
        exact accounted.read_entry _ empty (by rw [files]; rfl) files
  | unlocking file =>
    simp only [point] at fired
    cases fired
    rw [point] at justified
    exact accounted.move none (by rw [point]; rfl) justified
  | openingIn file =>
    simp only [point] at fired
    rw [point] at justified
    have files : directory.files file.entry = some file := justified
    split at fired
    · rename_i opens
      cases fired
      exact accounted.move state.holder (by rw [point]; rfl) ⟨files, opens⟩
    · rename_i fails
      cases fired
      refine accounted.move state.holder (by rw [point]; rfl) ?_
      simp [GetFile.Justified, JobDirectory.Unopenable, JobDirectory.opens, files, fails]
  | openingOut file =>
    simp only [point] at fired
    rw [point] at justified
    obtain ⟨files, opensIn⟩ := justified
    split at fired
    · rename_i opens
      cases fired
      refine accounted.move state.holder (by rw [point]; rfl) ?_
      simp [GetFile.Justified, JobDirectory.Openable, JobDirectory.opens, files, opensIn, opens]
    · rename_i fails
      cases fired
      refine accounted.move state.holder (by rw [point]; rfl) ?_
      simp [GetFile.Justified, JobDirectory.Unopenable, JobDirectory.opens, files, fails]
  | running file =>
    simp only [point] at fired
    cases fired
    exact accounted.run_entry point
  | unlockingLast =>
    simp only [point] at fired
    cases fired
    rw [point] at justified
    exact accounted.move none (by rw [point]; rfl) justified
  | ended lost =>
    simp only [point] at fired
    cases fired

/-- The invariant holds in every interleaving. -/
theorem run_accounted {turns : List τ}
    (ran : Interleaving.run (step directory) turns start = some state) :
    Accounted directory state :=
  Interleaving.run_keeps (fun _ _ _ accounted fired => step_accounted accounted fired)
    start_accounted ran

/-! ### When all threads have ended -/

/-- Every accepted entry whose files can be opened was run exactly once, and no entry twice. -/
def RunsAll (directory : JobDirectory) (state : JobThreads τ) : Prop :=
  (∀ entry, directory.Openable entry → state.runs entry = 1) ∧ ∀ entry, state.runs entry ≤ 1

/-- The entries before one that are accepted and cannot be opened. -/
def unopenableBefore (directory : JobDirectory) (entry : ℕ) : List ℕ :=
  (List.range entry).filter fun earlier => directory.Unopenable earlier

theorem mem_unopenableBefore {entry earlier : ℕ} :
    earlier ∈ unopenableBefore directory entry ↔
      earlier < entry ∧ directory.Unopenable earlier := by
  simp [unopenableBefore]

/-- **No entry is run twice.** -/
theorem Accounted.runs_le_one (accounted : Accounted directory state) (entry : ℕ) :
    state.runs entry ≤ 1 := by
  refine List.nodup_iff_count_le_one.mp (accounted.nodup.map_on ?_) entry
  rintro ⟨thread, entry⟩ member ⟨other, _⟩ member' rfl
  have read := (accounted.ran thread entry member).1
  have read' := (accounted.ran other entry member').1
  cases read.symm.trans read'
  rfl

theorem Accounted.runs_eq_one_iff (accounted : Accounted directory state) {entry : ℕ} :
    state.runs entry = 1 ↔ ∃ thread, (thread, entry) ∈ state.ran := by
  have atMost := accounted.runs_le_one entry
  have positive : 0 < state.runs entry ↔ ∃ thread, (thread, entry) ∈ state.ran := by
    rw [JobThreads.runs, List.count_pos_iff]
    simp
  rw [← positive]
  omega

/-- An entry read and not run has cost its reader. -/
theorem Accounted.lost (accounted : Accounted directory state) {entry : ℕ}
    (unopenable : directory.Unopenable entry) (read : state.reads[entry]? = some thread) :
    (state.threads thread).inHand = some entry := by
  have accepted : (directory.files entry).isSome := by
    unfold JobDirectory.Unopenable at unopenable
    cases found : directory.files entry with
    | none => simp [found] at unopenable
    | some file => rfl
  rcases accounted.read thread entry read accepted with member | held
  · exact absurd (accounted.ran thread entry member).2 (JobDirectory.not_openable unopenable)
  · exact held

/-- **An entry that is run** comes after fewer unopenable entries than there are threads: each of
these has cost a thread, and the thread that ran the entry is another one. -/
theorem Accounted.few_before [Fintype τ] (accounted : Accounted directory state) {entry : ℕ}
    (ran : (thread, entry) ∈ state.ran) :
    (unopenableBefore directory entry).length < Fintype.card τ := by
  have bound := (List.getElem?_eq_some_iff.mp (accounted.ran thread entry ran).1).1
  let reader (earlier : ℕ) : τ := state.reads.getD earlier thread
  have held : ∀ earlier ∈ unopenableBefore directory entry,
      (state.threads (reader earlier)).inHand = some earlier := by
    intro earlier member
    obtain ⟨before, unopenable⟩ := mem_unopenableBefore.mp member
    refine accounted.lost unopenable ?_
    simp [reader, List.getElem?_eq_getElem (before.trans bound)]
  have distinct : (thread :: (unopenableBefore directory entry).map reader).Nodup := by
    refine List.nodup_cons.mpr ⟨fun member => ?_, ?_⟩
    · obtain ⟨earlier, listed, same⟩ := List.mem_map.mp member
      have later := (accounted.held thread earlier (same ▸ held earlier listed)).2 entry ran
      exact absurd (mem_unopenableBefore.mp listed).1 (not_lt.mpr later.le)
    · refine (List.nodup_range.filter _).map_on fun first listed second listed' same => ?_
      have both := held first listed
      rw [same, held second listed'] at both
      exact (Option.some.inj both).symm
  have counted := distinct.length_le_card
  rwa [List.length_cons, List.length_map] at counted

/-- **An entry with so few before it** is run, once every thread has ended. -/
theorem Accounted.run_of_few [Fintype τ] (accounted : Accounted directory state)
    (ended : state.Ended) {entry : ℕ} (openable : directory.Openable entry)
    (few : (unopenableBefore directory entry).length < Fintype.card τ) :
    ∃ thread, (thread, entry) ∈ state.ran := by
  obtain ⟨file, found⟩ : ∃ file, directory.files entry = some file := by
    unfold JobDirectory.Openable at openable
    cases found : directory.files entry with
    | none => simp [found] at openable
    | some file => exact ⟨file, rfl⟩
  by_cases reached : entry < state.reads.length
  · obtain ⟨thread, read⟩ : ∃ thread, state.reads[entry]? = some thread :=
      ⟨_, List.getElem?_eq_getElem reached⟩
    rcases accounted.read thread entry read (by rw [found]; rfl) with member | held
    · exact ⟨thread, member⟩
    · obtain ⟨lost, point⟩ := GetFile.hasEnded_iff.mp (ended thread)
      have justified := accounted.justified thread
      rw [point] at held justified
      cases held
      exact absurd openable (JobDirectory.not_openable justified)
  · -- the stream never got so far: each thread was lost with an entry of its own
    exfalso
    have lost : ∀ thread, ∃ earlier ∈ unopenableBefore directory entry,
        state.reads[earlier]? = some thread := by
      intro thread
      obtain ⟨lost, point⟩ := GetFile.hasEnded_iff.mp (ended thread)
      have justified := accounted.justified thread
      have held := accounted.held thread
      rw [point] at justified held
      cases lost with
      | none => exact absurd (lt_of_lt_of_le (JobDirectory.listed found) justified) reached
      | some earlier =>
        have read := (held earlier rfl).1
        have before := (List.getElem?_eq_some_iff.mp read).1
        exact ⟨earlier, mem_unopenableBefore.mpr ⟨by omega, justified⟩, read⟩
    choose entryOf member read using lost
    have injective : Function.Injective entryOf := by
      intro first second same
      have both := read first
      rw [same, read second] at both
      exact (Option.some.inj both).symm
    have inside : Finset.univ.image entryOf ⊆ (unopenableBefore directory entry).toFinset := by
      intro earlier image
      obtain ⟨thread, -, rfl⟩ := Finset.mem_image.mp image
      exact List.mem_toFinset.mpr (member thread)
    have counted := (Finset.card_le_card inside).trans (List.toFinset_card_le _)
    rw [Finset.card_image_of_injective _ injective, Finset.card_univ] at counted
    omega

/-- **Which job files are run.** When all threads have ended, every accepted entry that can be
opened was run exactly once, and none twice, if and only if each comes after fewer accepted entries
that cannot be opened than there are threads. -/
theorem runs_all_iff [Fintype τ] (directory : JobDirectory) (turns : List τ)
    (final : JobThreads τ) (ran : Interleaving.run (step directory) turns start = some final)
    (ended : final.Ended) :
    RunsAll directory final ↔
      ∀ entry, directory.Openable entry →
        (unopenableBefore directory entry).length < Fintype.card τ := by
  have accounted := run_accounted ran
  constructor
  · rintro ⟨all, -⟩ entry openable
    obtain ⟨thread, member⟩ := accounted.runs_eq_one_iff.mp (all entry openable)
    exact accounted.few_before member
  · intro few
    refine ⟨fun entry openable => ?_, accounted.runs_le_one⟩
    exact accounted.runs_eq_one_iff.mpr
      (accounted.run_of_few ended openable (few entry openable))

/-- A directory with the two jobs `a.job` and `b.job`, of which the first cannot be opened. -/
def brokenFirst : JobDirectory where
  dir := ⟨ascii ['d'], by decide⟩
  listing := [⟨ascii ['a'] ++ jobSuffix, by decide⟩, ⟨ascii ['b'] ++ jobSuffix, by decide⟩]
  opensIn path := decide (path ≠ ascii ['d', '/', 'a'] ++ jobSuffix)
  opensOut _ := true

/-- One thread: it ends with the first job. -/
theorem brokenFirst_one_thread :
    (Interleaving.run (step brokenFirst) [0, 0, 0, 0] (start : JobThreads (Fin 1))).isSome := by
  decide

/-- Nobody runs the second job. -/
theorem brokenFirst_strands_second :
    ∃ final, Interleaving.run (step brokenFirst) [0, 0, 0, 0] (start : JobThreads (Fin 1)) =
        some final ∧ final.Ended ∧ ¬ RunsAll brokenFirst final := by
  refine ⟨_, (Option.some_get brokenFirst_one_thread).symm, by decide, fun all => ?_⟩
  exact absurd (all.1 1 (by decide)) (by decide)

/-- Two threads: one ends with the first job, the other runs the second. -/
theorem brokenFirst_two_threads :
    (Interleaving.run (step brokenFirst) [0, 0, 0, 0, 1, 1, 1, 1, 1, 1, 1, 1, 1]
      (start : JobThreads (Fin 2))).isSome := by
  decide

theorem runs_all_iff_two_threads :
    ∃ final, Interleaving.run (step brokenFirst) [0, 0, 0, 0, 1, 1, 1, 1, 1, 1, 1, 1, 1]
        (start : JobThreads (Fin 2)) = some final ∧
      (RunsAll brokenFirst final ↔ ∀ entry, brokenFirst.Openable entry →
        (unopenableBefore brokenFirst entry).length < Fintype.card (Fin 2)) :=
  ⟨_, (Option.some_get brokenFirst_two_threads).symm,
    runs_all_iff brokenFirst _ _ (Option.some_get brokenFirst_two_threads).symm (by decide)⟩

end Kvs.Server
