/-
**The job threads and their directory (`entry_files` and `get_file` in `server/main.c`).**

Any number of threads run `get_file` on one directory stream. A thread reads entries under
`directory_mutex` until one is accepted, runs its job outside the lock, and comes back for the next;
a thread that cannot open one of the two files ends there. `JobThreads.step` is a thread's next
step. Each `readdir` returns the next entry of the listing, the calls on the mutex succeed, and
which files can be opened is a property of their paths. `run_job` is one step here: it returns `0`
on every path it takes, since `kvs_backup` never returns `1`.

`entry_files` compares the suffix behind the last dot and the length of the path; what it does not
accept is skipped with the lock still held.
-/

import Kvs.Lib.Interleaving
import Kvs.Basic

namespace Kvs.Server

/-! ### Accepted entries -/

/-- `MAX_JOB_FILE_NAME_SIZE` (`server/constants.h`). -/
def maxJobFileNameSize : ℕ := 256

/-- `strrchr`: where the last such character of a text is. -/
def strrchr : List Byte → Byte → Option ℕ
  | [], _ => none
  | first :: rest, char =>
    match strrchr rest char with
    | some place => some (place + 1)
    | none => if first = char then some 0 else none

/-- `".job"`. -/
def jobSuffix : List Byte := ascii ['.', 'j', 'o', 'b']

/-- `".out"`. -/
def outSuffix : List Byte := ascii ['.', 'o', 'u', 't']

/-- `strcpy(strrchr(path, '.'), ".out")`. -/
def withOutSuffix (path : List Byte) : List Byte :=
  match strrchr path '.'.toUInt8 with
  | some dot => path.take dot ++ outSuffix
  | none => path

/-- `entry_files`: the two paths of an entry, none when it returns `1`. -/
def entryFiles (dir name : CStr) : Option (List Byte × List Byte) :=
  match strrchr name.bytes '.'.toUInt8 with
  | none => none
  | some dot =>
    let suffix := name.bytes.drop dot
    if dot = 0 ∨ suffix.length ≠ 4 ∨ suffix ≠ jobSuffix then none
    else if name.length + dir.length + 2 > maxJobFileNameSize then none
    else
      let inPath := dir.bytes ++ ascii ['/'] ++ name.bytes
      some (inPath, withOutSuffix inPath)

/-! ### The directory -/

/-- A directory: its path, the entries `readdir` returns in order, and the files that can be
opened. -/
structure JobDirectory where
  dir : CStr
  listing : List CStr
  opensIn : List Byte → Bool
  opensOut : List Byte → Bool

/-- An accepted entry: its place in the listing, and `in_path` and `out_path`. -/
structure JobFile where
  entry : ℕ
  inPath : List Byte
  outPath : List Byte
deriving DecidableEq

namespace JobDirectory

variable (directory : JobDirectory)

/-- The files of an entry, if it is accepted. -/
def files (entry : ℕ) : Option JobFile :=
  directory.listing[entry]?.bind fun name =>
    (entryFiles directory.dir name).map fun paths => ⟨entry, paths.1, paths.2⟩

/-- Both files can be opened. -/
def opens (file : JobFile) : Bool :=
  directory.opensIn file.inPath && directory.opensOut file.outPath

/-- The entry is accepted and its files can be opened. -/
def Openable (entry : ℕ) : Prop := (directory.files entry).any directory.opens = true

/-- The entry is accepted and one of its files cannot be opened. -/
def Unopenable (entry : ℕ) : Prop :=
  (directory.files entry).any (fun file => !directory.opens file) = true

instance (entry : ℕ) : Decidable (directory.Openable entry) :=
  inferInstanceAs (Decidable (_ = _))

instance (entry : ℕ) : Decidable (directory.Unopenable entry) :=
  inferInstanceAs (Decidable (_ = _))

end JobDirectory

/-! ### The threads -/

/-- Where a thread stands in `get_file`; it holds the lock from `reading` to `unlocking`. -/
inductive GetFile where
  | locking
  | reading
  | unlocking (file : JobFile)
  | openingIn (file : JobFile)
  | openingOut (file : JobFile)
  | running (file : JobFile)
  /-- `readdir` has returned `NULL`. -/
  | unlockingLast
  /-- It has returned; `lost` is the entry it could not open a file of. -/
  | ended (lost : Option ℕ)
deriving DecidableEq

/-- `get_file` has returned. -/
def GetFile.hasEnded : GetFile → Bool
  | .ended _ => true
  | _ => false

/-- The threads, their lock and what they have done. -/
structure JobThreads (τ : Type) where
  /-- The holder of `directory_mutex`. -/
  holder : Option τ
  /-- The threads whose `readdir` calls returned an entry, in order: the stream has got as far. -/
  reads : List τ
  threads : τ → GetFile
  /-- The calls of `run_job`: which thread ran which entry. -/
  ran : List (τ × ℕ)

namespace JobThreads

variable {τ : Type}

/-- Every thread about to start. -/
def start : JobThreads τ := ⟨none, [], fun _ => .locking, []⟩

/-- Every thread has ended. -/
def Ended (state : JobThreads τ) : Prop := ∀ thread, (state.threads thread).hasEnded = true

instance [Fintype τ] (state : JobThreads τ) : Decidable state.Ended :=
  inferInstanceAs (Decidable (∀ _, _ = true))

/-- How often an entry was run. -/
def runs (state : JobThreads τ) (entry : ℕ) : ℕ := (state.ran.map Prod.snd).count entry

variable [DecidableEq τ]

/-- A thread's next step; none when it waits for the lock or has ended. `run_job` is one step: the
jobs are taken to return. -/
def step (directory : JobDirectory) (thread : τ) (state : JobThreads τ) :
    Option (JobThreads τ) :=
  let goTo (point : GetFile) := Function.update state.threads thread point
  match state.threads thread with
  | .locking =>
    if state.holder = none then
      some { state with holder := some thread, threads := goTo .reading }
    else none
  | .reading =>
    match directory.listing[state.reads.length]? with
    | none => some { state with threads := goTo .unlockingLast }
    | some name =>
      match entryFiles directory.dir name with
      | none => some { state with reads := state.reads ++ [thread] }
      | some (inPath, outPath) =>
        some { state with
          reads := state.reads ++ [thread]
          threads := goTo (.unlocking ⟨state.reads.length, inPath, outPath⟩) }
  | .unlocking file => some { state with holder := none, threads := goTo (.openingIn file) }
  | .openingIn file =>
    if directory.opensIn file.inPath then some { state with threads := goTo (.openingOut file) }
    else some { state with threads := goTo (.ended (some file.entry)) }
  | .openingOut file =>
    if directory.opensOut file.outPath then some { state with threads := goTo (.running file) }
    else some { state with threads := goTo (.ended (some file.entry)) }
  | .running file =>
    some { state with threads := goTo .locking, ran := state.ran ++ [(thread, file.entry)] }
  | .unlockingLast => some { state with holder := none, threads := goTo (.ended none) }
  | .ended _ => none

end JobThreads

end Kvs.Server
