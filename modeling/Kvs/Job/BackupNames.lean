/-
**The names of the backup files (`kvs_backup` in `server/operations.c`).**

`run_job` counts the backups of its job from `1` and hands `kvs_backup` the name of the directory
entry. `strtok` takes from it what stands between its leading dots and the next dot, the stem, and
puts a NUL over that dot: the entry's name is cut for the backups after it. The file name is
`directory/stem-number.bck`, cut by `snprintf` to `49` bytes.

A second `strtok` finds the same stem, so the cut changes no later name (`afterBackups_eq`). What
does collide are entries with one stem, as `a.b.job` and `a.c.job`, and backups whose directory
leaves no room for what tells them apart. `bckName_ne_iff` is the exact condition.
-/

import Kvs.Job.Numerals
import Kvs.Server.JobDirectory

namespace Kvs.Server

/-- `'.'`. -/
def dotByte : Byte := '.'.toUInt8

/-- What stands between the leading dots of a name and the next dot. -/
def stemOf (name : CStr) : List Byte := (name.bytes.dropWhile (· = dotByte)).takeWhile (· ≠ dotByte)

theorem stemOf_subset (name : CStr) : stemOf name ⊆ name.bytes :=
  fun _ member => (List.dropWhile_suffix _).subset ((List.takeWhile_prefix _).subset member)

/-- A name with a NUL over the dot behind its stem. -/
def cutName (name : CStr) : CStr where
  bytes := name.bytes.takeWhile (· = dotByte) ++ stemOf name
  noNul member := (List.mem_append.mp member).elim
    (fun dots => name.noNul ((List.takeWhile_prefix _).subset dots))
    fun inside => name.noNul (stemOf_subset name inside)

/-- `strtok(str, ".")`: the token, none for `NULL`, and the string as it leaves it. -/
def strtok (str : CStr) : Option (List Byte × CStr) :=
  if stemOf str = [] then none else some (stemOf str, cutName str)

/-- `"%ld"` of a `size_t`. -/
def formatLd (number : ℕ) : List Byte :=
  let signed := (BitVec.ofNat 64 number).toInt
  if signed < 0 then ascii ['-'] ++ decimal signed.natAbs else decimal signed.natAbs

/-- `sizeof(bck_name)`. -/
def bckNameSize : ℕ := 50

/-- `kvs_backup`, as far as it names the file: `bck_name` and `job_filename` afterwards, none when
`strtok` gives `NULL`. -/
def bckName (numBackup : ℕ) (jobFilename directory : CStr) : Option (List Byte × CStr) :=
  (strtok jobFilename).map fun (token, left) =>
    (snprintf bckNameSize (directory.bytes ++ ascii ['/'] ++ token ++ ascii ['-'] ++
      formatLd numBackup ++ ascii ['.', 'b', 'c', 'k']), left)

/-- What `run_job` keeps for the names of its backups. `filename` is the entry's own `d_name`, taken
as not overwritten meanwhile by the `readdir` of another thread on the same directory. -/
structure JobNames where
  filename : CStr
  fileBackups : ℕ

/-- `CMD_BACKUP`: the name of the file, and what is kept for the next one. -/
def JobNames.backup (directory : CStr) (job : JobNames) : Option (List Byte × JobNames) :=
  (bckName (job.fileBackups + 1) job.filename directory).map fun (name, filename) =>
    (name, ⟨filename, job.fileBackups + 1⟩)

/-- The job of an entry after so many backups. -/
def afterBackups (directory entry : CStr) : ℕ → Option JobNames
  | 0 => some ⟨entry, 0⟩
  | backups + 1 =>
    (afterBackups directory entry backups).bind fun job =>
      (job.backup directory).map Prod.snd

/-- A backup: the entry of its job, and how many the job has made before it. -/
structure JobBackup (directory : CStr) where
  entry : CStr
  accepted : (entryFiles directory entry).isSome
  earlier : ℕ

namespace JobBackup

variable {directory : CStr}

/-- Its number within the job, from `1`. -/
def number (backup : JobBackup directory) : ℕ := backup.earlier + 1

/-- The name of the file it opens. -/
def name (backup : JobBackup directory) : Option (List Byte) :=
  (afterBackups directory backup.entry backup.earlier).bind fun job =>
    (job.backup directory).map Prod.fst

/-- What tells the backups of a directory apart: stem and number. -/
def label (backup : JobBackup directory) : List Byte :=
  stemOf backup.entry ++ ascii ['-'] ++ formatLd backup.number

end JobBackup

/-! ### The stem -/

theorem dot_notMem_stemOf (name : CStr) : dotByte ∉ stemOf name := fun member => by
  simpa using List.mem_takeWhile_imp member

/-- Behind the cut stands the same stem. -/
theorem stemOf_cutName (name : CStr) : stemOf (cutName name) = stemOf name := by
  have dots : ∀ byte ∈ name.bytes.takeWhile (· = dotByte), decide (byte = dotByte) = true := by
    intro byte member
    simpa using List.mem_takeWhile_imp member
  have noDot := dot_notMem_stemOf name
  rw [stemOf, cutName, List.dropWhile_append_of_pos dots]
  have kept : (stemOf name).dropWhile (· = dotByte) = stemOf name := by
    cases stem : stemOf name with
    | nil => rfl
    | cons first others =>
      have different : first ≠ dotByte := fun same =>
        noDot (by rw [stem, same]; exact List.mem_cons_self)
      rw [List.dropWhile_cons_of_neg (by simpa using different)]
  rw [kept, List.takeWhile_eq_self_iff]
  intro byte member
  have different : byte ≠ dotByte := fun same => noDot (same ▸ member)
  simpa using different

/-- The name of an accepted entry is not made of dots. -/
theorem stemOf_ne_nil {directory entry : CStr} (accepted : (entryFiles directory entry).isSome) :
    stemOf entry ≠ [] := by
  have letter : 'j'.toUInt8 ∈ entry.bytes := by
    rw [entryFiles] at accepted
    split at accepted
    · cases accepted
    rename_i place _
    by_cases suffix : entry.bytes.drop place = jobSuffix
    · exact (List.drop_suffix place entry.bytes).subset (suffix ▸ by decide)
    · simp only [suffix, not_false_eq_true, ne_eq, or_true, if_true] at accepted
      cases accepted
  intro nothing
  have inside : 'j'.toUInt8 ∈ entry.bytes.dropWhile (· = dotByte) := by
    rw [← List.takeWhile_append_dropWhile (p := (· = dotByte)) (l := entry.bytes)] at letter
    rcases List.mem_append.mp letter with dots | inside
    · exact absurd (List.mem_takeWhile_imp dots) (by decide)
    · exact inside
  have first := List.head?_dropWhile_not (fun byte => decide (byte = dotByte)) entry.bytes
  rw [stemOf] at nothing
  cases left : entry.bytes.dropWhile (· = dotByte) with
  | nil => rw [left] at inside; cases inside
  | cons byte others =>
    rw [left] at first nothing
    rw [List.takeWhile_cons_of_pos (by simpa using first)] at nothing
    cases nothing

/-! ### The backups of one job -/

/-- **The cut changes no later name**: every backup of a job finds the stem of its entry. -/
theorem afterBackups_eq (directory : CStr) {entry : CStr} (stem : stemOf entry ≠ []) (backups : ℕ) :
    ∃ filename, afterBackups directory entry backups = some ⟨filename, backups⟩ ∧
      stemOf filename = stemOf entry := by
  induction backups with
  | zero => exact ⟨entry, rfl, rfl⟩
  | succ backups ih =>
    obtain ⟨filename, reached, same⟩ := ih
    refine ⟨cutName filename, ?_, (stemOf_cutName filename).trans same⟩
    rw [afterBackups, reached, Option.bind_some, JobNames.backup, bckName, strtok,
      if_neg (same ▸ stem)]
    rfl

namespace JobBackup

variable {directory : CStr}

/-- The name of the file, from stem and number. -/
theorem name_eq (backup : JobBackup directory) :
    backup.name = some (snprintf bckNameSize (directory.bytes ++ ascii ['/'] ++
      (backup.label ++ ascii ['.', 'b', 'c', 'k']))) := by
  obtain ⟨filename, reached, same⟩ :=
    afterBackups_eq directory (stemOf_ne_nil backup.accepted) backup.earlier
  rw [name, reached, Option.bind_some, JobNames.backup, bckName, strtok,
    if_neg (same ▸ stemOf_ne_nil backup.accepted), same, label]
  simp only [List.append_assoc]
  rfl

end JobBackup

/-! ### Labels -/

theorem decimal_notMem {number : ℕ} {byte : Byte} (other : isDigit byte = false) :
    byte ∉ decimal number := fun member => by
  rw [decimal_digits number byte member] at other
  cases other

theorem dot_notMem_label {directory : CStr} (backup : JobBackup directory) :
    dotByte ∉ backup.label := by
  have number : dotByte ∉ formatLd backup.number := by
    rw [formatLd]
    split
    · rw [List.mem_append, not_or]
      exact ⟨by decide, decimal_notMem (by decide)⟩
    · exact decimal_notMem (by decide)
  rw [JobBackup.label, List.mem_append, List.mem_append, not_or, not_or]
  exact ⟨⟨dot_notMem_stemOf _, by decide⟩, number⟩

/-- Texts ended by a byte they do not contain agree up to a place exactly when the texts do. -/
theorem take_ended_eq_iff {α : Type} {ending : α} (more : List α) (places : ℕ) :
    ∀ one two : List α, ending ∉ one → ending ∉ two →
      ((one ++ ending :: more).take places = (two ++ ending :: more).take places ↔
        ∀ place < places, one[place]? = two[place]?) := by
  intro one
  induction one generalizing places with
  | nil =>
    intro two _ absent
    cases two with
    | nil => exact iff_of_true rfl fun _ _ => rfl
    | cons first two =>
      cases places with
      | zero => exact iff_of_true rfl fun _ none => absurd none (Nat.not_lt_zero _)
      | succ places =>
        have different : ending ≠ first := fun same => absent (same ▸ List.mem_cons_self)
        refine iff_of_false (fun same => different (List.cons.inj same).1) fun same => ?_
        cases same 0 (Nat.succ_pos places)
  | cons first one ih =>
    intro two absentOne absentTwo
    cases places with
    | zero => exact iff_of_true rfl fun _ none => absurd none (Nat.not_lt_zero _)
    | succ places =>
      cases two with
      | nil =>
        have different : first ≠ ending := fun same => absentOne (same ▸ List.mem_cons_self)
        refine iff_of_false (fun same => different (List.cons.inj same).1) fun same => ?_
        cases same 0 (Nat.succ_pos places)
      | cons second two =>
        have later := ih places two (fun member => absentOne (List.mem_cons_of_mem _ member))
          fun member => absentTwo (List.mem_cons_of_mem _ member)
        rw [List.cons_append, List.cons_append, List.take_succ_cons, List.take_succ_cons,
          List.cons.injEq, later, Nat.forall_lt_succ_left]
        exact and_congr_left fun _ => (Option.some.injEq first second).symm.to_iff

/-- Two backups open one file when their labels agree as far as the directory leaves room. -/
theorem name_eq_iff {directory : CStr} (one two : JobBackup directory) :
    one.name = two.name ↔ ∀ place < bckNameSize - 1 - (directory.length + 1),
      one.label[place]? = two.label[place]? := by
  have start : (directory.bytes ++ ascii ['/']).length = directory.length + 1 := by
    rw [List.length_append]
    rfl
  have cut : ∀ tail : List Byte, (directory.bytes ++ ascii ['/'] ++ tail).take (bckNameSize - 1) =
      (directory.bytes ++ ascii ['/']).take (bckNameSize - 1) ++
        tail.take (bckNameSize - 1 - (directory.length + 1)) := fun tail => by
    rw [List.take_append, start]
  rw [← take_ended_eq_iff (ascii ['b', 'c', 'k']) _ _ _ (dot_notMem_label one)
      (dot_notMem_label two), one.name_eq, two.name_eq, Option.some.injEq, snprintf, snprintf,
    cut, cut, List.append_cancel_left_eq]
  rfl

/-! ### Backups with room for their label -/

theorem decimal_injective : Function.Injective decimal := by
  intro one two same
  rw [← digitsValue_decimal one, same, digitsValue_decimal]

/-- A number no file has the bytes to exceed. -/
theorem formatLd_small {number : ℕ} (small : number < 2 ^ 63) :
    formatLd number = decimal number := by
  have signed : (BitVec.ofNat 64 number).toInt = number := by
    rw [BitVec.toInt_ofNat']
    exact Int.bmod_eq_of_le (by omega) (by omega)
  rw [formatLd]
  simp only [signed, Int.natAbs_natCast]
  rw [if_neg (by omega)]

/-- The last hyphen separates the number from the stem. -/
theorem hyphen_inj {hyphen : Byte} {stem stem' number number' : List Byte}
    (absent : hyphen ∉ number) (absent' : hyphen ∉ number')
    (same : stem ++ hyphen :: number = stem' ++ hyphen :: number') :
    stem = stem' ∧ number = number' := by
  rcases List.append_eq_append_iff.mp same with ⟨middle, rfl, tail⟩ | ⟨middle, rfl, tail⟩
  · cases middle with
    | nil => exact ⟨(List.append_nil _).symm, (List.cons.inj tail).2⟩
    | cons first middle =>
      refine absurd ?_ absent
      rw [(List.cons.inj tail).2]
      exact List.mem_append_right _ List.mem_cons_self
  · cases middle with
    | nil => exact ⟨List.append_nil _, (List.cons.inj tail).2.symm⟩
    | cons first middle =>
      refine absurd ?_ absent'
      rw [(List.cons.inj tail).2]
      exact List.mem_append_right _ List.mem_cons_self

theorem label_eq_iff {directory : CStr} {one two : JobBackup directory}
    (smallOne : one.number < 2 ^ 63) (smallTwo : two.number < 2 ^ 63) :
    one.label = two.label ↔ stemOf one.entry = stemOf two.entry ∧ one.number = two.number := by
  rw [JobBackup.label, JobBackup.label, formatLd_small smallOne, formatLd_small smallTwo]
  constructor
  · intro same
    rw [List.append_assoc, List.append_assoc] at same
    obtain ⟨stem, number⟩ :=
      hyphen_inj (decimal_notMem (by decide)) (decimal_notMem (by decide)) same
    exact ⟨stem, decimal_injective number⟩
  · rintro ⟨stem, number⟩
    rw [stem, number]

/-- **A backup whose label fits** shares its file only with those of its stem and number. -/
theorem name_eq_iff_of_fits {directory : CStr} {one two : JobBackup directory}
    (smallOne : one.number < 2 ^ 63) (smallTwo : two.number < 2 ^ 63)
    (fits : directory.length + 1 + one.label.length < bckNameSize - 1) :
    one.name = two.name ↔ stemOf one.entry = stemOf two.entry ∧ one.number = two.number := by
  rw [name_eq_iff, ← label_eq_iff smallOne smallTwo]
  constructor
  · intro agree
    have behind : two.label.length ≤ one.label.length := by
      have last := agree one.label.length (by omega)
      rw [List.getElem?_eq_none le_rfl] at last
      exact List.getElem?_eq_none_iff.mp last.symm
    refine List.ext_getElem? fun place => ?_
    by_cases inside : place < one.label.length
    · exact agree place (by omega)
    · rw [List.getElem?_eq_none (not_lt.mp inside),
        List.getElem?_eq_none (behind.trans (not_lt.mp inside))]
  · intro same place _
    rw [same]

/-! ### All backups -/

/-- **Two backups open different files** exactly when their labels differ at a place that the
directory leaves within the first `49` bytes. -/
theorem bckName_ne_iff (directory : CStr) (one two : JobBackup directory) :
    one.name ≠ two.name ↔
      ∃ place, directory.length + 1 + place < bckNameSize - 1 ∧
        one.label[place]? ≠ two.label[place]? := by
  rw [ne_eq, name_eq_iff]
  push Not
  refine exists_congr fun place => and_congr_left fun _ => ?_
  omega

/-- The first backup of an accepted entry of the directory `jobs`. -/
def firstBackup (entry : CStr)
    (accepted : (entryFiles ⟨ascii ['j', 'o', 'b', 's'], by decide⟩ entry).isSome) :
    JobBackup ⟨ascii ['j', 'o', 'b', 's'], by decide⟩ := ⟨entry, accepted, 0⟩

/-- The first backups of `a.b.job` and of `a.c.job` go to one file. -/
theorem sameStem_sameName : ¬ ∀ (directory : CStr) (one two : JobBackup directory),
    one.entry ≠ two.entry ∨ one.number ≠ two.number → one.name ≠ two.name := by
  intro distinct
  refine distinct _
    (firstBackup ⟨ascii ['a', '.', 'b', '.', 'j', 'o', 'b'], by decide⟩ (by decide))
    (firstBackup ⟨ascii ['a', '.', 'c', '.', 'j', 'o', 'b'], by decide⟩ (by decide))
    (Or.inl (by decide)) ?_
  decide

end Kvs.Server
