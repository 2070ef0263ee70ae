/-
**What a step of the process leaves alone.**

`Process.fire` is the effect of a step and then a thread that goes to its next place. `fire_worker`,
`fire_host` and `fire_job` take a step apart in this way, and the lemmas about `perform` say which
component an effect can change: no effect moves a thread, only three change the files, only one the
log. `opening` is the file a turn opens, for conditions on what an open returns.
-/

import Kvs.Server.Process

namespace Kvs.Server

open DescriptorTable

/-! ### What a worker's step can be -/

variable {τ : Type}

/-- An effect on nothing but what the session has read. -/
def Effect.Reads (connection : Connection) (file : File) (effect : Effect τ) : Prop :=
  effect = .none ∨ effect = .transfers (.consumed connection.session file)

/-- An effect on nothing but what the session has written. -/
def Effect.Responds (process : Process τ) (connection : Connection) (effect : Effect τ) : Prop :=
  effect = .none ∨ ∃ found, file process.files connection.respFd = some found ∧
    found.writable ∧ effect = .transfers (.responded connection.session found)

/-- Where a worker can go after a read. -/
def RequestPoint.Follows : RequestPoint → Prop
  | .reading _ | .changing _ _ | .disconnecting => True
  | .blocked _ _ | .responding _ | .clearing _ | .closing _ => False

/-- What a step of a worker in `run_client_requests` can be. -/
inductive Serves (process : Process τ) (connection : Connection) (index : ℕ) :
    RequestPoint → Effect τ → WorkerPoint → Prop
  | leaves (place : RequestPoint) : Serves process connection index place .none .waiting
  | exits (place : RequestPoint) :
    Serves process connection index place .none (.exited connection index)
  | calls {what : Reading} {file : File}
    (found : readCall process.files connection.reqFd = some file) :
    Serves process connection index (.reading what) .none
      (.serving connection index (.blocked what file))
  | goesOn {what : Reading} {next : RequestPoint} (follows : next.Follows) :
    Serves process connection index (.reading what) .none (.serving connection index next)
  | reads {what : Reading} {file : File} {effect : Effect τ} {next : RequestPoint}
    (reads : effect.Reads connection file) (follows : next.Follows) :
    Serves process connection index (.blocked what file) effect
      (.serving connection index next)
  | subscribes (key : Key) :
    Serves process connection index (.changing .subscribe key) (.subscribes key connection)
      (.serving connection index (.responding false))
  | unsubscribes (key : Key) :
    Serves process connection index (.changing .unsubscribe key)
      (.operates (.deleteSubscription key connection.notifFd))
      (.serving connection index (.responding false))
  | responds {last : Bool} {effect : Effect τ} {next : RequestPoint}
    (responds : effect.Responds process connection)
    (follows : next = .responding last ∨ next = if last then .closing .req else .reading .op) :
    Serves process connection index (.responding last) effect (.serving connection index next)
  | disconnects :
    Serves process connection index .disconnecting (.operates (.disconnect connection.notifFd))
      (.serving connection index (.clearing .req))
  | clears {field : Field} {next : RequestPoint} (inside : index < maxClients)
    (follows : next = .responding true ∨ ∃ other, next = .clearing other) :
    Serves process connection index (.clearing field) (.stores ⟨index, inside⟩ field 0)
      (.serving connection index next)
  | closes {field : Field} {moved : WorkerPoint}
    (follows : moved = .waiting ∨ ∃ other, moved = .serving connection index (.closing other)) :
    Serves process connection index (.closing field) (.closes (connection.fd field)) moved

/-- What a step of a worker can be. -/
inductive Moves (process : Process τ) : WorkerPoint → Effect τ → WorkerPoint → Prop
  | begins : Moves process .waiting .begins (.openingReq process.sessions)
  | opensReq (session : ℕ) :
    Moves process (.openingReq session) (.opens (.request session))
      (.openingResp session (lowest process.files))
  | opensResp (session reqFd : ℕ) :
    Moves process (.openingResp session reqFd) (.opens (.response session))
      (.openingNotif session reqFd (lowest process.files))
  | opensNotif (session reqFd respFd : ℕ) :
    Moves process (.openingNotif session reqFd respFd) (.opens (.notification session))
      (.connecting ⟨session, reqFd, respFd, lowest process.files⟩)
  | givesUp (point : WorkerPoint) {effect : Effect τ} {moved : WorkerPoint}
    (closes : effect = .none ∨ ∃ fd, effect = .closes fd)
    (follows : moved = .waiting ∨ ∃ fds, moved = .givingUp fds) :
    Moves process point effect moved
  | connects {connection : Connection} {effect : Effect τ} {moved : WorkerPoint}
    (responds : effect.Responds process connection)
    (follows : moved = .connecting connection ∨ moved = .testing connection 0) :
    Moves process (.connecting connection) effect moved
  | takes (connection : Connection) {index : Fin maxClients}
    (free : (process.activeClients index).reqFd = 0) :
    Moves process (.testing connection index) .none (.storing connection index .req)
  | passes (connection : Connection) {index : Fin maxClients}
    (taken : (process.activeClients index).reqFd ≠ 0) :
    Moves process (.testing connection index) .none (.testing connection (index + 1))
  | misses (connection : Connection) {index : ℕ} (outside : ¬ index < maxClients) :
    Moves process (.testing connection index) .none (.serving connection index (.reading .op))
  | storesReq (connection : Connection) (index : Fin maxClients) :
    Moves process (.storing connection index .req) (.stores index .req connection.reqFd)
      (.storing connection index .resp)
  | storesResp (connection : Connection) (index : Fin maxClients) :
    Moves process (.storing connection index .resp) (.stores index .resp connection.respFd)
      (.storing connection index .notif)
  | storesNotif (connection : Connection) (index : Fin maxClients) :
    Moves process (.storing connection index .notif) (.stores index .notif connection.notifFd)
      (.serving connection index (.reading .op))
  | serves {connection : Connection} {index : ℕ} {place : RequestPoint} {effect : Effect τ}
    {moved : WorkerPoint} (serves : Serves process connection index place effect moved) :
    Moves process (.serving connection index place) effect moved

/-! ### What a job thread's step can be -/

/-- Not within a command. -/
def JobPoint.Outside : JobPoint → Prop
  | .holding .. | .notifying .. => False
  | _ => True

/-- What a step of a job thread can be. -/
inductive Works (process : Process τ) (thread : τ) : JobPoint → Effect τ → JobPoint → Prop
  | moves {point moved : JobPoint} {effect : Effect τ}
    (files : effect = .none ∨ (∃ new, effect = .opens new) ∨ ∃ fd, effect = .closes fd)
    (before : point.Outside) (after : moved.Outside) : Works process thread point effect moved
  | locks (inFd outFd : ℕ) (calls : List PairOp) :
    Works process thread (.working inFd outFd) (.locks thread) (.holding inFd outFd calls)
  | unlocks (inFd outFd : ℕ) :
    Works process thread (.holding inFd outFd []) .unlocks (.working inFd outFd)
  | calls (inFd outFd : ℕ) {call : PairOp} {entry : Entry} {after : HashTable}
    (calls : List PairOp) (executed : call.exec process.table = .ok (entry, after)) :
    Works process thread (.holding inFd outFd (call :: calls)) .none
      (.notifying inFd outFd (process.framesOfCall call) after calls)
  | leaves (inFd outFd : ℕ) (after : HashTable) (calls : List PairOp) :
    Works process thread (.notifying inFd outFd [] after calls) (.leaves after)
      (.holding inFd outFd calls)
  | sends (inFd outFd : ℕ) {frame : Frame} {frames rest : List Frame} (after : HashTable)
    (calls : List PairOp) {effect : Effect τ}
    (writes : effect = .none ∨ ∃ found, file process.files frame.fd.toNat = some found ∧
      found.writable ∧ effect = .transfers (.notified frame.owner found))
    (follows : rest = frames ∨ rest = frame :: frames) :
    Works process thread (.notifying inFd outFd (frame :: frames) after calls) effect
      (.notifying inFd outFd rest after calls)

/-! ### Openings -/

/-- The file a worker is about to open. -/
def WorkerPoint.opens : WorkerPoint → Option File
  | .openingReq session => some (.request session)
  | .openingResp session _ => some (.response session)
  | .openingNotif session _ _ => some (.notification session)
  | _ => none

/-- The file a job thread is about to open. -/
def JobPoint.opens : JobPoint → Option File
  | .openingIn => some .jobIn
  | .openingOut _ => some .jobOut
  | _ => none

namespace Process

variable {process after next : Process τ} {effect : Effect τ}

/-! ### Operations on the table -/

/-- An operation waits for the lock, and changes the table only. -/
theorem operate_eq_some {op : StoreOp} (operated : process.operate op = some after) :
    process.lock = none ∧ ∃ outcome, op.exec process.table = .ok outcome ∧
      after = { process with table := outcome.table } := by
  unfold operate at operated
  split at operated
  · rename_i free
    refine ⟨Option.isNone_iff_eq_none.mp free, ?_⟩
    split at operated
    · rename_i outcome executed
      exact ⟨outcome, executed, (Option.some.inj operated).symm⟩
    · cases operated
  · cases operated

/-! ### What an effect changes -/

/-- What an effect adds to the log. -/
def transferred : Effect τ → List Transfer
  | .transfers transfer => [transfer]
  | _ => []

/-- What an effect does to the files. -/
def filesAfter (process : Process τ) : Effect τ → Table File
  | .opens new => opened process.files new
  | .closes fd => closed process.files fd
  | .hostCloses index field =>
    closed process.files ((process.activeClients index).load field).toNat
  | _ => process.files

/-- What an effect does to the entries. -/
def activeClientsAfter (process : Process τ) : Effect τ → Fin maxClients → ActiveClient
  | .stores index field value => Function.update process.activeClients index
      ((process.activeClients index).store field value)
  | _ => process.activeClients

/-- The sessions whose request descriptor an effect closes by way of their entry. -/
def newlyCut (process : Process τ) : Effect τ → List ℕ
  | .hostCloses index .req => (List.finRange maxClients).filterMap fun worker =>
      registeredBy index (process.workers worker)
  | _ => []

/-- **The components of an effect.** No thread moves, and the files, the entries, the sessions cut
off and the log change as said. -/
theorem perform_components (performed : process.perform effect = some after) :
    after.workers = process.workers ∧ after.jobs = process.jobs ∧ after.host = process.host ∧
      after.files = process.filesAfter effect ∧
      after.activeClients = process.activeClientsAfter effect ∧
      after.cut = process.cut ++ process.newlyCut effect ∧
      after.log = process.log ++ transferred effect := by
  cases effect with
  | hostCloses index field =>
    cases performed
    cases field <;> simp [filesAfter, activeClientsAfter, newlyCut, transferred]
  | operates op =>
    obtain ⟨-, outcome, -, rfl⟩ := operate_eq_some performed
    simp [filesAfter, activeClientsAfter, newlyCut, transferred]
  | subscribes key connection =>
    obtain ⟨operated, executed, rfl⟩ := Option.map_eq_some_iff.mp performed
    obtain ⟨-, outcome, -, rfl⟩ := operate_eq_some executed
    simp [filesAfter, activeClientsAfter, newlyCut, transferred]
  | sweeps =>
    obtain ⟨operated, executed, rfl⟩ := Option.map_eq_some_iff.mp performed
    obtain ⟨-, outcome, -, rfl⟩ := operate_eq_some executed
    simp [filesAfter, activeClientsAfter, newlyCut, transferred]
  | locks thread =>
    simp only [perform] at performed
    split at performed
    · cases performed
      simp [filesAfter, activeClientsAfter, newlyCut, transferred]
    · cases performed
  | _ =>
    cases performed
    simp [filesAfter, activeClientsAfter, newlyCut, transferred]

/-- What every opening and every closing keeps, every effect keeps. -/
theorem filesAfter_induction (kept : Table File → Prop) (start : kept process.files)
    (opens : ∀ new, effect = .opens new → kept (opened process.files new))
    (closes : ∀ fd, kept (closed process.files fd)) : kept (process.filesAfter effect) := by
  cases effect with
  | opens new => exact opens new rfl
  | closes fd => exact closes fd
  | hostCloses index field => exact closes _
  | _ => exact start

/-! ### The step of a worker -/

section Moves

variable {outside : Outside} {connection : Connection} {index : ℕ} {place : RequestPoint}
  {point moved : WorkerPoint}

/-- A call of `write` that moves bytes has found a file to write to. -/
theorem writeCall_moved {files : Table File} {fd : ℕ} {found : File} {whole : Bool}
    (called : writeCall files fd outside = some (.moved found whole)) :
    file files fd = some found ∧ found.writable := by
  unfold writeCall at called
  split at called
  · cases called
  · cases called
  · cases called
  · cases called
  · rename_i usable
    cases called
    exact Option.filter_eq_some_iff.mp usable
  · cases called

theorem responds_of_moved {found : File} {whole : Bool}
    (called : writeCall process.files connection.respFd outside = some (.moved found whole)) :
    Effect.Responds process connection (.transfers (.responded connection.session found)) :=
  .inr ⟨found, (writeCall_moved called).1, (writeCall_moved called).2, rfl⟩

theorem serves_of_serve
    (stepped : process.serve connection index outside place = some (effect, moved)) :
    Serves process connection index place effect moved := by
  cases place with
  | reading what =>
    simp only [serve] at stepped
    split at stepped
    · rename_i found
      cases stepped
      exact .calls found
    · cases stepped
      unfold afterBadRead
      split
      · exact .goesOn trivial
      · exact .goesOn trivial
      · exact .exits _
      · exact .leaves _
  | blocked what file =>
    cases what with
    | op =>
      cases outside with
      | code code =>
        cases stepped
        exact .reads (.inr rfl) (by cases code <;> trivial)
      | noCode badFd =>
        cases badFd <;> cases stepped
        · exact .reads (.inl rfl) trivial
        · exact .leaves _
      | _ => cases stepped
    | key request =>
      cases outside with
      | part | key key =>
        cases stepped
        exact .reads (.inr rfl) trivial
      | ends key =>
        cases stepped
        exact .reads (.inl rfl) trivial
      | fails key =>
        cases request <;> cases stepped
        · exact .reads (.inl rfl) trivial
        · exact .exits _
      | noCode badFd =>
        cases badFd <;> cases stepped
        exact .leaves _
      | _ => cases stepped
  | changing request key =>
    cases request <;> cases stepped
    · exact .subscribes key
    · exact .unsubscribes key
  | responding last =>
    obtain ⟨call, called, same⟩ := Option.map_eq_some_iff.mp stepped
    cases call with
    | badFd =>
      cases same
      exact .leaves _
    | moved found whole =>
      cases same
      refine .responds (responds_of_moved called) ?_
      cases whole <;> simp
    | fails =>
      cases same
      exact .responds (.inl rfl) (.inr rfl)
  | disconnecting =>
    cases stepped
    exact .disconnects
  | clearing field =>
    simp only [serve] at stepped
    split at stepped
    · rename_i inside
      cases stepped
      exact .clears inside (by cases field <;> simp)
    · cases stepped
  | closing field =>
    cases stepped
    exact .closes (by cases field <;> simp)

/-- **The inversion lemma** for a worker's step. -/
theorem moves_of_workerStep (stepped : process.workerStep outside point = some (effect, moved)) :
    Moves process point effect moved := by
  cases point with
  | waiting =>
    cases outside <;> cases stepped
    exact .begins
  | openingReq session =>
    cases outside with
    | opens success =>
      cases success <;> cases stepped
      · exact .givesUp _ (.inl rfl) (.inl rfl)
      · exact .opensReq session
    | _ => cases stepped
  | openingResp session reqFd =>
    cases outside with
    | opens success =>
      cases success <;> cases stepped
      · exact .givesUp _ (.inl rfl) (.inr ⟨_, rfl⟩)
      · exact .opensResp session reqFd
    | _ => cases stepped
  | openingNotif session reqFd respFd =>
    cases outside with
    | opens success =>
      cases success <;> cases stepped
      · exact .givesUp _ (.inl rfl) (.inr ⟨_, rfl⟩)
      · exact .opensNotif session reqFd respFd
    | _ => cases stepped
  | givingUp fds =>
    cases fds with
    | nil =>
      cases stepped
      exact .givesUp _ (.inl rfl) (.inl rfl)
    | cons fd fds =>
      cases stepped
      exact .givesUp _ (.inr ⟨fd, rfl⟩) (.inr ⟨fds, rfl⟩)
  | connecting connection =>
    obtain ⟨call, called, same⟩ := Option.map_eq_some_iff.mp stepped
    cases call with
    | moved found whole =>
      cases same
      refine .connects (responds_of_moved called) ?_
      cases whole <;> simp
    | badFd | fails =>
      cases same
      exact .connects (.inl rfl) (.inr rfl)
  | testing connection index =>
    simp only [workerStep] at stepped
    split at stepped
    · rename_i inside
      split at stepped
      · rename_i free
        cases stepped
        exact .takes connection free
      · rename_i taken
        cases stepped
        exact .passes connection taken
    · rename_i past
      cases stepped
      exact .misses connection past
  | storing connection index field =>
    cases field <;> cases stepped
    · exact .storesReq connection index
    · exact .storesResp connection index
    · exact .storesNotif connection index
  | serving connection index place => exact .serves (serves_of_serve stepped)
  | exited connection index => cases stepped

end Moves

/-! ### The step of a job thread -/

/-- **The inversion lemma** for a job thread's step. -/
theorem works_of_jobStep {thread : τ} {outside : Outside} {point moved : JobPoint}
    (stepped : process.jobStep thread outside point = some (effect, moved)) :
    Works process thread point effect moved := by
  cases point with
  | openingIn | openingOut =>
    cases outside with
    | opens success =>
      cases success <;> cases stepped
      · exact .moves (.inl rfl) trivial trivial
      · exact .moves (.inr (.inl ⟨_, rfl⟩)) trivial trivial
    | _ => cases stepped
  | working inFd outFd =>
    cases outside with
    | command calls =>
      cases stepped
      exact .locks inFd outFd calls
    | finished =>
      cases stepped
      exact .moves (.inl rfl) trivial trivial
    | _ => cases stepped
  | holding inFd outFd calls =>
    cases calls with
    | nil =>
      cases stepped
      exact .unlocks inFd outFd
    | cons call calls =>
      simp only [jobStep] at stepped
      split at stepped
      · rename_i executed
        cases stepped
        exact .calls inFd outFd calls executed
      · cases stepped
  | notifying inFd outFd frames after calls =>
    cases frames with
    | nil =>
      cases stepped
      exact .leaves inFd outFd after calls
    | cons frame frames =>
      obtain ⟨call, called, same⟩ := Option.map_eq_some_iff.mp stepped
      cases call with
      | moved found whole =>
        cases same
        have found := writeCall_moved called
        exact .sends inFd outFd after calls (.inr ⟨_, found.1, found.2, rfl⟩)
          (by cases whole <;> simp)
      | badFd | fails =>
        cases same
        exact .sends inFd outFd after calls (.inl rfl) (.inl rfl)
  | closingIn | closingOut =>
    cases stepped
    exact .moves (.inr (.inr ⟨_, rfl⟩)) trivial trivial
  | exited => cases stepped

/-! ### Openings -/

/-- A worker opens a file only when told that the open succeeds. -/
theorem workerStep_opens {outside : Outside} {point moved : WorkerPoint} {new : File}
    (stepped : process.workerStep outside point = some (.opens new, moved)) :
    outside = .opens true ∧ point.opens = some new := by
  cases moves_of_workerStep stepped with
  | opensReq | opensResp | opensNotif =>
    refine ⟨?_, rfl⟩
    cases outside with
    | opens success =>
      cases success with
      | true => rfl
      | false => cases stepped
    | _ => cases stepped
  | givesUp _ closes => rcases closes with same | ⟨_, same⟩ <;> cases same
  | connects responds => rcases responds with same | ⟨_, _, _, same⟩ <;> cases same
  | serves serves =>
    cases serves with
    | reads reads => rcases reads with same | same <;> cases same
    | responds responds => rcases responds with same | ⟨_, _, _, same⟩ <;> cases same

/-- A job thread opens a file only when told that the open succeeds. -/
theorem jobStep_opens {thread : τ} {outside : Outside} {point moved : JobPoint} {new : File}
    (stepped : process.jobStep thread outside point = some (.opens new, moved)) :
    outside = .opens true ∧ point.opens = some new := by
  cases point with
  | openingIn | openingOut =>
    cases outside with
    | opens success =>
      cases success with
      | true =>
        cases stepped
        exact ⟨rfl, rfl⟩
      | false => cases stepped
    | _ => cases stepped
  | working => cases outside <;> cases stepped
  | holding =>
    cases works_of_jobStep stepped with
    | moves _ before => cases before
  | notifying =>
    cases works_of_jobStep stepped with
    | moves _ before => cases before
    | sends _ _ _ _ writes => rcases writes with same | ⟨_, _, _, same⟩ <;> cases same
  | closingIn | closingOut | exited => cases stepped

/-- The file a turn opens. -/
def opening (process : Process τ) : Turn τ → Option File
  | .worker thread (.opens true) => (process.workers thread).opens
  | .job thread (.opens true) => (process.jobs thread).opens
  | _ => none

/-! ### The step of the host -/

/-- The host neither opens, reads nor writes. -/
theorem hostStep_quiet {outside : Outside} {place moved : HostPoint}
    (stepped : process.hostStep outside place = some (effect, moved)) :
    (∀ new, effect ≠ .opens new) ∧ transferred effect = [] := by
  cases place with
  | idle =>
    cases outside with
    | arrives =>
      cases stepped
      simp [transferred]
    | _ => cases stepped
  | testing index =>
    simp only [hostStep] at stepped
    split at stepped
    · split at stepped
      · cases stepped
        simp [transferred]
      · cases stepped
        simp [transferred]
    · cases stepped
      simp [transferred]
  | closing | clearing | disconnecting =>
    cases stepped
    simp [transferred]

/-! ### The parts of a step -/

section Fire

variable [DecidableEq τ] {outside : Outside}

theorem fire_worker {thread : Fin maxClients}
    (fired : fire (.worker thread outside) process = some next) :
    ∃ effect point after, Moves process (process.workers thread) effect point ∧
      (∀ new, effect = .opens new → process.opening (.worker thread outside) = some new) ∧
      process.perform effect = some after ∧
      next = { after with workers := Function.update process.workers thread point } := by
  obtain ⟨⟨effect, point⟩, stepped, rest⟩ := Option.bind_eq_some_iff.mp fired
  obtain ⟨after, performed, same⟩ := Option.map_eq_some_iff.mp rest
  refine ⟨effect, point, after, moves_of_workerStep stepped, ?_, performed, same.symm⟩
  rintro new rfl
  obtain ⟨rfl, opens⟩ := workerStep_opens stepped
  exact opens

theorem fire_host (fired : fire (.host outside) process = some next) :
    ∃ effect point after, process.hostStep outside process.host = some (effect, point) ∧
      process.perform effect = some after ∧ next = { after with host := point } := by
  obtain ⟨⟨effect, point⟩, stepped, rest⟩ := Option.bind_eq_some_iff.mp fired
  obtain ⟨after, performed, same⟩ := Option.map_eq_some_iff.mp rest
  exact ⟨effect, point, after, stepped, performed, same.symm⟩

theorem fire_job {thread : τ} (fired : fire (.job thread outside) process = some next) :
    ∃ effect point after, Works process thread (process.jobs thread) effect point ∧
      (∀ new, effect = .opens new → process.opening (.job thread outside) = some new) ∧
      process.perform effect = some after ∧
      next = { after with jobs := Function.update process.jobs thread point } := by
  obtain ⟨⟨effect, point⟩, stepped, rest⟩ := Option.bind_eq_some_iff.mp fired
  obtain ⟨after, performed, same⟩ := Option.map_eq_some_iff.mp rest
  refine ⟨effect, point, after, works_of_jobStep stepped, ?_, performed, same.symm⟩
  rintro new rfl
  obtain ⟨rfl, opens⟩ := jobStep_opens stepped
  exact opens

end Fire

/-! ### The turns of a client and of a SIGUSR1 -/

/-- A client connects and its session is entered. -/
def connectTurns (worker : Fin maxClients) : List (Turn τ) :=
  [.worker worker .arrives, .worker worker (.opens true), .worker worker (.opens true),
    .worker worker (.opens true), .worker worker (.wrote true), .worker worker .nothing,
    .worker worker .nothing, .worker worker .nothing, .worker worker .nothing]

/-- SIGUSR1, with a session in the first entry and none in the second. -/
def signalTurns : List (Turn τ) :=
  .host .arrives :: List.replicate 10 (.host .nothing)

end Process

end Kvs.Server
