/-
**Whose bytes a session reads and writes.**

A worker keeps the descriptors of its session in local variables, and the host closes them behind
its back. `WorkerPoint.kept` is the number a worker still uses to read from, or to write to, and for
which session. The number is honoured in the sense of `DescriptorTable` as long as no open returns
it for a file that can be used in the same way (`Apart`). Then a call of `read` or `write` either
finds the session's own pipe or fails with `EBADF`, after which the worker gives the session up:
`own_pipes`.

A read that blocks stays on its file, whatever happens to the number meanwhile.
-/

import Kvs.Server.Effects

namespace Kvs.Server

open DescriptorTable Interleaving Process

/-! ### What a worker keeps its descriptors for -/

/-- The two ways a session uses its pipes. -/
inductive Use where
  | reads | writes
deriving DecidableEq

instance : Fintype Use := ⟨{.reads, .writes}, fun use => by cases use <;> decide⟩

namespace Use

/-- The files that can be used so. -/
def usable : Use → File → Bool
  | reads => File.readable
  | writes => File.writable

/-- The pipe a session opens for it. -/
def pipe (session : ℕ) : Use → File
  | reads => .request session
  | writes => .response session

/-- The descriptor a session has for it. -/
def fd (connection : Connection) : Use → ℕ
  | reads => connection.reqFd
  | writes => connection.respFd

end Use

/-- The session may still use its descriptor so. -/
def RequestPoint.needs : Use → RequestPoint → Bool
  | _, .reading _ | _, .blocked _ _ | _, .changing _ _ | _, .responding false => true
  | .reads, .responding true | .reads, .disconnecting | .reads, .clearing _ => false
  | .writes, .responding true | .writes, .disconnecting | .writes, .clearing _ => true
  | _, .closing _ => false

/-- The session a worker runs or prepares, and the number it uses so. -/
def WorkerPoint.kept (use : Use) : WorkerPoint → Option (ℕ × ℕ)
  | .openingResp session reqFd =>
    match use with
    | .reads => some (session, reqFd)
    | .writes => none
  | .openingNotif session reqFd respFd =>
    match use with
    | .reads => some (session, reqFd)
    | .writes => some (session, respFd)
  | .connecting connection | .testing connection _ | .storing connection _ _ =>
    some (connection.session, use.fd connection)
  | .serving connection _ point =>
    if point.needs use then some (connection.session, use.fd connection) else none
  | .waiting | .openingReq _ | .givingUp _ | .exited _ _ => none

/-- **The condition.** No open returns a number that a worker uses in a way the opened file can be
used in. -/
def Apart {τ : Type} (turn : Process.Turn τ) (process : Process τ) : Prop :=
  ∀ new ∈ process.opening turn, ∀ worker use, ∀ kept ∈ (process.workers worker).kept use,
    use.usable new → lowest process.files ≠ kept.2

instance {τ : Type} (turn : Process.Turn τ) (process : Process τ) :
    Decidable (Apart turn process) :=
  inferInstanceAs (Decidable (∀ new ∈ process.opening turn, ∀ worker use,
    ∀ kept ∈ (process.workers worker).kept use, use.usable new → lowest process.files ≠ kept.2))

/-- The request bytes of every session were read from the pipe it opened for them, and its response
bytes were written to its pipe. -/
structure OwnPipesOnly {τ : Type} (process : Process τ) : Prop where
  consumed : ∀ session file, .consumed session file ∈ process.log → file = .request session
  responded : ∀ session file, .responded session file ∈ process.log → file = .response session

/-! ### The invariant -/

/-- What a worker keeps is honoured, and a read that blocks is on its session's pipe. -/
structure WorkerPoint.Sound (files : Table File) (point : WorkerPoint) : Prop where
  kept : ∀ use session fd, point.kept use = some (session, fd) →
    Honoured (use.usable ·) (use.pipe session) fd files
  blocked : ∀ connection index what file, point = .serving connection index (.blocked what file) →
    file = .request connection.session

/-- Bytes of a session went through its pipes. -/
def Transfer.Own : Transfer → Prop
  | .consumed session file => file = .request session
  | .responded session file => file = .response session
  | .notified _ _ => True

variable {τ : Type} {process after next : Process τ} {effect : Effect τ} {outside : Outside}
  {point moved : WorkerPoint}

/-- What the effect of a step does to the files, a worker that keeps apart from it survives. -/
theorem WorkerPoint.Sound.filesAfter (sound : point.Sound process.files)
    (apart : ∀ new, effect = .opens new → ∀ use, ∀ kept ∈ point.kept use,
      use.usable new → lowest process.files ≠ kept.2) :
    point.Sound (process.filesAfter effect) where
  kept use session fd kept :=
    filesAfter_induction (Honoured (use.usable ·) (use.pipe session) fd)
      (sound.kept use session fd kept)
      (fun new opens =>
        (sound.kept use session fd kept).opened (apart new opens use _ kept))
      (fun number => (sound.kept use session fd kept).closed number)
  blocked := sound.blocked

/-! ### A worker's step -/

/-- What a session needs after a step within `run_client_requests` it needed before. -/
theorem serves_kept {connection : Connection} {index : ℕ} {place : RequestPoint}
    (serves : Serves process connection index place effect moved) {use : Use} {session fd : ℕ}
    (kept : moved.kept use = some (session, fd)) :
    (WorkerPoint.serving connection index place).kept use = some (session, fd) := by
  cases serves with
  | leaves | exits => cases kept
  | calls | subscribes | unsubscribes => cases use <;> exact kept
  | goesOn follows | reads _ follows =>
    -- a read keeps both descriptors, so whatever follows needs no more
    simp only [WorkerPoint.kept] at kept ⊢
    split at kept
    · cases use <;> exact kept
    · cases kept
  | @responds last _ next _ follows =>
    rcases follows with rfl | rfl
    · exact kept
    · cases last
      · cases use <;> exact kept
      · cases use <;> cases kept
  | disconnects => cases use <;> exact kept
  | clears inside follows =>
    rcases follows with rfl | ⟨_, rfl⟩ <;> cases use <;> exact kept
  | closes follows =>
    rcases follows with rfl | ⟨_, rfl⟩ <;> cases use <;> cases kept

/-- What a worker keeps after a step it kept before, or has just opened. -/
theorem moves_kept (moves : Moves process point effect moved) {use : Use} {session fd : ℕ}
    (kept : moved.kept use = some (session, fd)) :
    point.kept use = some (session, fd) ∨
      effect = .opens (use.pipe session) ∧ fd = lowest process.files := by
  cases moves with
  | begins => cases kept
  | opensReq session' =>
    cases use with
    | reads =>
      cases kept
      exact .inr ⟨rfl, rfl⟩
    | writes => cases kept
  | opensResp session' reqFd =>
    cases use with
    | reads => exact .inl kept
    | writes =>
      cases kept
      exact .inr ⟨rfl, rfl⟩
  | opensNotif => cases use <;> exact .inl kept
  | givesUp _ _ follows => rcases follows with rfl | ⟨_, rfl⟩ <;> cases kept
  | connects _ follows => rcases follows with rfl | rfl <;> exact .inl kept
  | takes | passes | storesReq | storesResp => exact .inl kept
  | misses | storesNotif => cases use <;> exact .inl kept
  | serves serves => exact .inl (serves_kept serves kept)

/-- A read that blocks has just been called. -/
theorem moves_blocked (moves : Moves process point effect moved) {connection : Connection}
    {index : ℕ} {what : Reading} {found : File}
    (blocked : moved = .serving connection index (.blocked what found)) :
    file process.files connection.reqFd = some found ∧ found.readable ∧
      point = .serving connection index (.reading what) := by
  cases moves with
  | serves serves =>
    cases serves with
    | calls call =>
      cases blocked
      have usable := Option.filter_eq_some_iff.mp call
      exact ⟨usable.1, usable.2, rfl⟩
    | goesOn follows | reads _ follows =>
      cases blocked
      cases follows
    | responds _ follows =>
      cases blocked
      rcases follows with same | same
      · cases same
      · split at same <;> cases same
    | clears _ follows =>
      cases blocked
      rcases follows with same | ⟨_, same⟩ <;> cases same
    | closes follows =>
      cases blocked
      rcases follows with same | ⟨_, same⟩ <;> cases same
    | _ => cases blocked
  | givesUp _ _ follows => rcases follows with rfl | ⟨_, rfl⟩ <;> cases blocked
  | connects _ follows => rcases follows with rfl | rfl <;> cases blocked
  | _ => cases blocked

/-- An effect on no bytes. -/
theorem own_of_silent (silent : transferred effect = []) :
    ∀ transfer ∈ transferred effect, transfer.Own := by
  rw [silent]
  exact fun _ none => absurd none List.not_mem_nil

/-- What a worker writes goes to the pipe it keeps its descriptor for. -/
theorem responds_own {connection : Connection} (sound : point.Sound process.files)
    (kept : point.kept .writes = some (connection.session, connection.respFd))
    (responds : effect.Responds process connection) :
    ∀ transfer ∈ transferred effect, transfer.Own := by
  rcases responds with rfl | ⟨found, open', writable, rfl⟩
  · exact own_of_silent rfl
  · intro transfer one
    rw [List.mem_singleton.mp one]
    exact sound.kept .writes _ _ kept found open' writable

/-- **What a worker reads or writes** goes through its session's pipes. -/
theorem moves_own (sound : point.Sound process.files) (moves : Moves process point effect moved) :
    ∀ transfer ∈ transferred effect, transfer.Own := by
  cases moves with
  | connects responds => exact responds_own sound rfl responds
  | givesUp _ closes =>
    rcases closes with rfl | ⟨_, rfl⟩
    all_goals exact own_of_silent rfl
  | serves serves =>
    cases serves with
    | reads reads =>
      rcases reads with rfl | rfl
      · exact own_of_silent rfl
      · intro transfer one
        rw [List.mem_singleton.mp one]
        exact sound.blocked _ _ _ _ rfl
    | @responds last _ _ responds =>
      exact responds_own sound (by cases last <;> rfl) responds
    | _ => exact own_of_silent rfl
  | _ => exact own_of_silent rfl

/-- A worker that moves on is as sound as it was. -/
theorem moves_sound (sound : point.Sound process.files)
    (soundAfter : point.Sound (process.filesAfter effect))
    (moves : Moves process point effect moved) : moved.Sound (process.filesAfter effect) where
  kept use session fd kept := by
    rcases moves_kept moves kept with before | ⟨rfl, rfl⟩
    · exact soundAfter.kept use session fd before
    · exact honoured_opened
  blocked connection index what found blocked := by
    obtain ⟨open', readable, rfl⟩ := moves_blocked moves blocked
    exact sound.kept .reads connection.session connection.reqFd rfl found open' readable

/-- A job thread writes frames only. -/
theorem works_own {thread : τ} {place moved : JobPoint}
    (works : Works process thread place effect moved) :
    ∀ transfer ∈ transferred effect, transfer.Own := by
  cases works with
  | moves files =>
    rcases files with rfl | ⟨_, rfl⟩ | ⟨_, rfl⟩
    all_goals exact own_of_silent rfl
  | sends _ _ _ _ writes =>
    rcases writes with rfl | ⟨_, _, _, rfl⟩
    · exact own_of_silent rfl
    · intro transfer one
      rw [List.mem_singleton.mp one]
      trivial
  | _ => exact own_of_silent rfl

/-! ### Runs -/

variable [DecidableEq τ] {turn : Process.Turn τ}

/-- Every worker is sound, and so is all that was read and written. -/
structure Undisturbed (process : Process τ) : Prop where
  workers : ∀ worker, (process.workers worker).Sound process.files
  log : ∀ transfer ∈ process.log, transfer.Own

theorem waiting_sound (files : Table File) : WorkerPoint.waiting.Sound files where
  kept _ _ _ kept := by cases kept
  blocked _ _ _ _ same := by cases same

omit [DecidableEq τ] in
theorem start_undisturbed (opened : ℕ) : Undisturbed (start opened : Process τ) where
  workers _ := waiting_sound _
  log := fun _ none => absurd none List.not_mem_nil

omit [DecidableEq τ] in
/-- An effect that transfers a session's own bytes only, if any. -/
theorem perform_undisturbed (inv : Undisturbed process)
    (apart : ∀ new, effect = .opens new → ∀ worker use,
      ∀ kept ∈ (process.workers worker).kept use, use.usable new → lowest process.files ≠ kept.2)
    (own : ∀ transfer ∈ transferred effect, transfer.Own)
    (performed : process.perform effect = some after) : Undisturbed after := by
  obtain ⟨workers, -, -, files, -, -, log⟩ := perform_components performed
  refine ⟨fun worker => ?_, ?_⟩
  · rw [workers, files]
    exact (inv.workers worker).filesAfter fun new opens => apart new opens worker
  · rw [log]
    exact List.forall_mem_append.mpr ⟨inv.log, own⟩

/-- **The step lemma.** -/
theorem fire_undisturbed (inv : Undisturbed process) (apart : Apart turn process)
    (fired : fire turn process = some next) : Undisturbed next := by
  cases turn with
  | worker thread outside =>
    obtain ⟨effect, point, after, moves, opens, performed, rfl⟩ := fire_worker fired
    have inv' := perform_undisturbed inv (fun new opened => apart new (opens new opened))
      (moves_own (inv.workers thread) moves) performed
    obtain ⟨workers, -, -, files, -, -, -⟩ := perform_components performed
    refine ⟨?_, inv'.log⟩
    show ∀ worker, (Function.update process.workers thread point worker).Sound after.files
    have others := inv'.workers
    rw [workers] at others
    refine (Function.forall_update_iff process.workers fun _ point => point.Sound after.files).mpr
      ⟨?_, fun worker _ => others worker⟩
    have soundAfter := others thread
    rw [files] at soundAfter ⊢
    exact moves_sound (inv.workers thread) soundAfter moves
  | host outside =>
    obtain ⟨effect, point, after, stepped, performed, rfl⟩ := fire_host fired
    have quiet := hostStep_quiet stepped
    have inv' := perform_undisturbed inv (fun new opens => absurd opens (quiet.1 new))
      (own_of_silent quiet.2) performed
    exact ⟨inv'.workers, inv'.log⟩
  | job thread outside =>
    obtain ⟨effect, point, after, works, opens, performed, rfl⟩ := fire_job fired
    have inv' := perform_undisturbed inv (fun new opened => apart new (opens new opened))
      (works_own works) performed
    exact ⟨inv'.workers, inv'.log⟩

/-- **Sessions read and write their own pipes.** In every run in which no open returns a number that
a worker still uses in the same way, each byte a worker reads for a session comes from the pipe the
session opened for its requests, and each byte it writes goes to the pipe for its responses. -/
theorem own_pipes (opened : ℕ) (turns : List (Process.Turn τ)) (final : Process τ)
    (apart : Meets fire Apart turns (start opened))
    (ran : run fire turns (start opened) = some final) :
    OwnPipesOnly final := by
  have inv := run_keeps_of_meets (fun _ _ _ inv apart fired => fire_undisturbed inv apart fired)
    (start_undisturbed opened) apart ran
  exact ⟨fun _ _ logged => inv.log _ logged, fun _ _ logged => inv.log _ logged⟩

/-- SIGUSR1 closes a session, which notices at its second read, and the next one is given the same
numbers. -/
def successiveSessions : List (Process.Turn (Fin 1)) :=
  connectTurns 0 ++ signalTurns ++ [.worker 0 (.noCode false), .worker 0 .nothing] ++
    connectTurns 1 ++
    [.worker 1 .nothing, .worker 1 (.code .subscribe)]

theorem successiveSessions_run :
    (run fire successiveSessions (start 3 : Process (Fin 1))).isSome := by
  decide

theorem own_pipes_successive :
    ∃ final, run fire successiveSessions (start 3 : Process (Fin 1)) = some final ∧
      OwnPipesOnly final :=
  ⟨_, (Option.some_get successiveSessions_run).symm,
    own_pipes 3 _ _ (by decide) (Option.some_get successiveSessions_run).symm⟩

/-- SIGUSR1 closes a session that is about to read its next operation code. The next session is
given the same numbers before the first notices, and the first reads and answers its DISCONNECT. -/
theorem session_answers_another :
    ∃ final, run fire (connectTurns 0 ++ signalTurns ++ connectTurns 1 ++
        [.worker 0 .nothing, .worker 0 (.code .disconnect), .worker 0 .nothing, .worker 0 .nothing,
          .worker 0 .nothing, .worker 0 .nothing, .worker 0 (.wrote true)])
        (start 3 : Process (Fin 1)) = some final ∧
      ¬ OwnPipesOnly final := by
  refine ⟨_, rfl, ?_⟩
  intro only
  have := only.consumed 0 (.request 1) (by decide)
  cases this

end Kvs.Server
