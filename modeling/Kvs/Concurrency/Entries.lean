/-
**The entries of `active_clients`.**

A worker scans for an entry whose `req_fd` is `0`, stores its three descriptors there one by one and
runs the session with the entry's index. Nothing is locked: another worker can test the entry before
the first store, the entry can be one that a session or the host is still clearing, and descriptor
`0` leaves a taken entry looking free.

`Exclusive` says of a step that none of this happens. Then no two workers run with one index, every
index is inside the array, and a session is recorded in its entry from the last store on, until it
clears the entry for its own DISCONNECT or `close_all_clients` has closed it. This is
`sessions_own_entries`.
-/

import Kvs.Server.Effects

namespace Kvs.Server

open DescriptorTable Interleaving Process

/-! ### Who is where -/

namespace WorkerPoint

/-- The session a worker has taken an entry for, and the index. -/
def taken : WorkerPoint → Option (Connection × ℕ)
  | .storing connection index _ => some (connection, index)
  | .serving connection index _ => some (connection, index)
  | _ => none

/-- The entry a worker tests, or has taken. -/
def index : WorkerPoint → Option ℕ
  | .testing _ index | .serving _ index _ | .exited _ index => some index
  | .storing _ index _ => some index
  | _ => none

/-- The request descriptor of the session a worker prepares or runs. -/
def req : WorkerPoint → Option ℕ
  | .openingResp _ reqFd | .openingNotif _ reqFd _ => some reqFd
  | .connecting connection | .testing connection _ | .storing connection _ _
  | .serving connection _ _ => some connection.reqFd
  | .waiting | .openingReq _ | .givingUp _ | .exited _ _ => none

end WorkerPoint

/-- The session has not come to clear its entry for its own DISCONNECT. -/
def RequestPoint.live : RequestPoint → Bool
  | .clearing _ | .responding true | .closing _ => false
  | .reading _ | .blocked _ _ | .changing _ _ | .responding false | .disconnecting => true

namespace HostPoint

/-- The entry the host closes or clears. -/
def worksAt : HostPoint → Option (Fin maxClients)
  | .closing index _ | .clearing index _ => some index
  | _ => none

/-- The same, once it has closed the request descriptor. -/
def hasClosed : HostPoint → Option (Fin maxClients)
  | .closing _ .req => none
  | .closing index _ | .clearing index _ => some index
  | _ => none

end HostPoint

theorem worksAt_of_hasClosed {place : HostPoint} {index : Fin maxClients}
    (closed : place.hasClosed = some index) : place.worksAt = some index := by
  cases place with
  | closing own field =>
    cases field with
    | req => cases closed
    | resp | notif => exact closed
  | clearing => exact closed
  | _ => cases closed

/-! ### The condition -/

section Condition

variable {τ : Type} (process : Process τ)

/-- The worker whose turn it is and the entry it tests. -/
def Process.testing : Process.Turn τ → Option (Fin maxClients × Fin maxClients)
  | .worker thread _ =>
    match process.workers thread with
    | .testing _ index =>
      if inside : index < maxClients then some (thread, ⟨index, inside⟩) else none
    | _ => none
  | .host _ | .job _ _ => none

/-- Nobody else has taken the entry, and the host is not at work there. -/
def Unclaimed (thread index : Fin maxClients) : Prop :=
  process.host.worksAt ≠ some index ∧
    ∀ other ≠ thread, ∀ taken ∈ (process.workers other).taken, taken.2 ≠ index.val

/-- The entry is another worker's, or it is not the last and no other worker is past it. -/
def Passable (thread index : Fin maxClients) : Prop :=
  (∃ other, other ≠ thread ∧ (registeredBy index (process.workers other)).isSome) ∨
    index.val + 1 < maxClients ∧
      ∀ other ≠ thread, ∀ own ∈ (process.workers other).index, own ≤ index.val

instance (thread index : Fin maxClients) : Decidable (Unclaimed process thread index) :=
  inferInstanceAs (Decidable (_ ∧ _))

instance (thread index : Fin maxClients) : Decidable (Passable process thread index) :=
  inferInstanceAs (Decidable (_ ∨ _))

end Condition

/-- **The condition.** A worker finds an entry free only if it is unclaimed, finds one taken only if
it can be passed, and opens no request pipe as descriptor `0`. -/
def Exclusive {τ : Type} (turn : Process.Turn τ) (process : Process τ) : Prop :=
  (∀ test ∈ process.testing turn, if (process.activeClients test.2).reqFd = 0
    then Unclaimed process test.1 test.2 else Passable process test.1 test.2) ∧
  ∀ new ∈ process.opening turn, new matches .request _ → lowest process.files ≠ 0

instance {τ : Type} (turn : Process.Turn τ) (process : Process τ) :
    Decidable (Exclusive turn process) :=
  inferInstanceAs (Decidable (_ ∧ _))

/-! ### What is to hold -/

/-- Every session that runs has an entry of its own. -/
structure SessionsOwnEntries {τ : Type} (process : Process τ) : Prop where
  /-- Its index is inside the array. -/
  inside : ∀ worker connection index place,
    process.workers worker = .serving connection index place → index < maxClients
  /-- No other session runs with the index. -/
  single : ∀ worker other connection connection' index place place',
    process.workers worker = .serving connection index place →
    process.workers other = .serving connection' index place' → worker = other
  /-- The entry holds its descriptors, and `close_all_clients` does not take it for free. -/
  recorded : ∀ worker connection index place,
    process.workers worker = .serving connection index place →
    place.live → connection.session ∉ process.cut → ∃ inside : index < maxClients,
      process.activeClients ⟨index, inside⟩ =
        ⟨connection.reqFd, connection.respFd, connection.notifFd⟩ ∧ connection.reqFd ≠ 0

/-! ### The invariant -/

/-- What is stored in the entry of a session that the host has not cut off. -/
def WorkerPoint.Recorded (entries : Fin maxClients → ActiveClient) (cut : List ℕ) :
    WorkerPoint → Prop
  | .storing connection index .resp =>
    connection.session ∉ cut → (entries index).reqFd = connection.reqFd
  | .storing connection index .notif =>
    connection.session ∉ cut →
      (entries index).reqFd = connection.reqFd ∧ (entries index).respFd = connection.respFd
  | .serving connection index place =>
    place.live → connection.session ∉ cut → ∀ inside : index < maxClients,
      entries ⟨index, inside⟩ = ⟨connection.reqFd, connection.respFd, connection.notifFd⟩
  | _ => True

/-- Two workers never have the same entry, and while one scans past the first the other is not
there. -/
structure WorkerPoint.Beside (point other : WorkerPoint) : Prop where
  single : ∀ connection index, point.taken = some (connection, index) →
    ∀ connection', other.taken ≠ some (connection', index)
  ahead : ∀ connection index, point = .testing connection index → 0 < index →
    ∀ own ∈ other.index, own < index

variable {τ : Type} {process after next : Process τ} {effect : Effect τ}
  {point moved : WorkerPoint}

/-- Every worker's session has an entry of its own. -/
structure OwnEntries (process : Process τ) : Prop where
  inside : ∀ worker, ∀ index ∈ (process.workers worker).index, index < maxClients
  beside : ∀ worker other, worker ≠ other →
    (process.workers worker).Beside (process.workers other)
  reserved : ∀ worker connection index,
    process.workers worker = .storing connection index .req →
      (process.activeClients index).reqFd = 0 ∧ process.host.worksAt ≠ some index
  closed : ∀ index, process.host.hasClosed = some index → ∀ worker connection,
    (process.workers worker).taken = some (connection, index.val) → connection.session ∈ process.cut
  recorded : ∀ worker, (process.workers worker).Recorded process.activeClients process.cut
  nonzero : ∀ worker, ∀ fd ∈ (process.workers worker).req, fd ≠ 0

/-! ### A worker's step -/

theorem WorkerPoint.index_of_taken {connection : Connection} {index : ℕ}
    (taken : point.taken = some (connection, index)) : point.index = some index := by
  cases point with
  | storing | serving =>
    cases taken
    rfl
  | _ => cases taken

/-- What a worker's step can be, as far as the entries go. -/
inductive Advances (process : Process τ) : WorkerPoint → WorkerPoint → Prop
  | leaves {point moved : WorkerPoint} (nowhere : moved.index = none) : Advances process point moved
  | scans {point : WorkerPoint} (connection : Connection) :
    Advances process point (.testing connection 0)
  | takes (connection : Connection) {index : Fin maxClients}
    (free : (process.activeClients index).reqFd = 0) :
    Advances process (.testing connection index) (.storing connection index .req)
  | passes (connection : Connection) {index : Fin maxClients}
    (taken : (process.activeClients index).reqFd ≠ 0) :
    Advances process (.testing connection index) (.testing connection (index + 1))
  | misses (connection : Connection) {index : ℕ} {moved : WorkerPoint}
    (past : ¬ index < maxClients) : Advances process (.testing connection index) moved
  | stays {point moved : WorkerPoint} (same : moved.index = point.index)
    (taken : moved.taken = none ∨ moved.taken = point.taken)
    (done : ∀ connection index, moved ≠ .testing connection index) : Advances process point moved

theorem advances_of_moves (moves : Moves process point effect moved) :
    Advances process point moved := by
  cases moves with
  | begins | opensReq | opensResp | opensNotif => exact .leaves rfl
  | givesUp _ _ follows => rcases follows with rfl | ⟨_, rfl⟩ <;> exact .leaves rfl
  | connects _ follows =>
    rcases follows with rfl | rfl
    · exact .leaves rfl
    · exact .scans _
  | takes connection free => exact .takes connection free
  | passes connection taken => exact .passes connection taken
  | misses connection past => exact .misses connection past
  | storesReq | storesResp | storesNotif =>
    exact .stays rfl (.inr rfl) fun _ _ same => by cases same
  | serves serves =>
    cases serves with
    | leaves => exact .leaves rfl
    | exits => exact .stays rfl (.inl rfl) fun _ _ same => by cases same
    | closes follows =>
      rcases follows with rfl | ⟨_, rfl⟩
      · exact .leaves rfl
      · exact .stays rfl (.inr rfl) fun _ _ same => by cases same
    | _ => exact .stays rfl (.inr rfl) fun _ _ same => by cases same

/-- There are two workers. -/
theorem other_worker : ∀ {worker other thread : Fin maxClients},
    worker ≠ thread → other ≠ thread → worker = other := by
  decide

theorem index_of_registeredBy {index : ℕ} (registered : (registeredBy index point).isSome) :
    point.index = some index ∧ ∀ connection tested, point ≠ .testing connection tested := by
  have only {own session : ℕ} (registered : (if own = index then some session else none).isSome) :
      own = index := by
    split at registered
    · assumption
    · cases registered
  cases point with
  | storing connection own field =>
    cases field with
    | req => cases registered
    | resp | notif => exact ⟨congrArg some (only registered), fun _ _ same => by cases same⟩
  | serving | exited => exact ⟨congrArg some (only registered), fun _ _ same => by cases same⟩
  | _ => cases registered

/-- A scan never comes to an end without a free entry. -/
theorem passable_inside {thread index : Fin maxClients} {connection : Connection}
    (inv : OwnEntries process) (place : process.workers thread = .testing connection index)
    (passable : Passable process thread index) : index.val + 1 < maxClients := by
  rcases passable with ⟨other, different, registered⟩ | ⟨inside, -⟩
  · by_cases first : index.val = 0
    · rw [first]
      decide
    · have past := (inv.beside thread other different.symm).ahead connection index place
        (Nat.pos_of_ne_zero first) index (index_of_registeredBy registered).1
      exact absurd past (lt_irrefl _)
  · exact inside

/-! ### What is stored -/

/-- A worker stores in the entry it has taken only, and cuts no session off. -/
theorem moves_stores (moves : Moves process point effect moved) :
    process.newlyCut effect = [] ∧ ∀ index : Fin maxClients,
      (∀ connection, point.taken ≠ some (connection, index.val)) →
        process.activeClientsAfter effect index = process.activeClients index := by
  have elsewhere {connection : Connection} {own index : Fin maxClients} {field : Field} {value : Fd}
      (taken : point.taken = some (connection, own.val))
      (untaken : ∀ connection, point.taken ≠ some (connection, index.val)) :
      process.activeClientsAfter (τ := τ) (.stores own field value) index =
        process.activeClients index := by
    refine Function.update_of_ne ?_ _ _
    rintro rfl
    exact untaken connection taken
  cases moves with
  | givesUp _ closes => rcases closes with rfl | ⟨_, rfl⟩ <;> exact ⟨rfl, fun _ _ => rfl⟩
  | connects responds =>
    rcases responds with rfl | ⟨_, _, _, rfl⟩ <;> exact ⟨rfl, fun _ _ => rfl⟩
  | storesReq | storesResp | storesNotif =>
    exact ⟨rfl, fun index untaken => elsewhere rfl untaken⟩
  | serves serves =>
    cases serves with
    | reads reads => rcases reads with rfl | rfl <;> exact ⟨rfl, fun _ _ => rfl⟩
    | responds responds =>
      rcases responds with rfl | ⟨_, _, _, rfl⟩ <;> exact ⟨rfl, fun _ _ => rfl⟩
    | clears inside => exact ⟨rfl, fun index untaken => elsewhere rfl untaken⟩
    | _ => exact ⟨rfl, fun _ _ => rfl⟩
  | _ => exact ⟨rfl, fun _ _ => rfl⟩

/-- An entry stays recorded while nobody stores in it, whoever is cut off. -/
theorem WorkerPoint.Recorded.of_same {entries entries' : Fin maxClients → ActiveClient}
    {cut cut' : List ℕ} (recorded : point.Recorded entries cut) (more : cut ⊆ cut')
    (same : ∀ connection, ∀ index : Fin maxClients,
      point.taken = some (connection, index.val) → connection.session ∉ cut' →
        entries' index = entries index) : point.Recorded entries' cut' := by
  cases point with
  | storing connection index field =>
    cases field with
    | req => trivial
    | resp | notif =>
      intro uncut
      rw [same connection index rfl uncut]
      exact recorded fun before => uncut (more before)
  | serving connection index place =>
    intro live uncut inside
    rw [same connection ⟨index, inside⟩ rfl uncut]
    exact recorded live (fun before => uncut (more before)) inside
  | _ => trivial

/-- A worker that stores a descriptor has it recorded from then on. -/
theorem moves_recorded (recorded : point.Recorded process.activeClients process.cut)
    (inside : ∀ index ∈ point.index, index < maxClients)
    (moves : Moves process point effect moved) :
    moved.Recorded (process.activeClientsAfter effect) process.cut := by
  cases moves with
  | begins | opensReq | opensResp | opensNotif | takes | passes => trivial
  | givesUp _ _ follows => rcases follows with rfl | ⟨_, rfl⟩ <;> trivial
  | connects _ follows => rcases follows with rfl | rfl <;> trivial
  | misses connection past => exact absurd (inside _ rfl) past
  | storesReq connection index =>
    intro uncut
    simp [activeClientsAfter, ActiveClient.store]
  | storesResp connection index =>
    intro uncut
    simpa [activeClientsAfter, ActiveClient.store] using recorded uncut
  | storesNotif connection index =>
    intro _ uncut within
    have stored := recorded uncut
    simp [activeClientsAfter, ActiveClient.store, stored]
  | serves serves =>
    cases serves with
    | leaves | exits => trivial
    | calls | goesOn | subscribes | unsubscribes => exact fun _ => recorded rfl
    | reads reads follows =>
      rcases reads with rfl | rfl <;> exact fun _ => recorded rfl
    | @responds last _ _ responds follows =>
      have quiet : process.activeClientsAfter effect = process.activeClients := by
        rcases responds with rfl | ⟨_, _, _, rfl⟩ <;> rfl
      rw [quiet]
      rcases follows with rfl | rfl
      · exact recorded
      · cases last with
        | false => exact fun _ => recorded rfl
        | true => exact fun live => by cases live
    | disconnects => exact fun live => by cases live
    | clears _ follows =>
      rcases follows with rfl | ⟨_, rfl⟩ <;> exact fun live => by cases live
    | closes follows =>
      rcases follows with rfl | ⟨_, rfl⟩
      · trivial
      · exact fun live => by cases live

/-- A session's request descriptor is what the open returned. -/
theorem moves_req (moves : Moves process point effect moved) {fd : ℕ} (there : fd ∈ moved.req) :
    fd ∈ point.req ∨ ∃ session, effect = .opens (.request session) ∧ fd = lowest process.files := by
  cases moves with
  | begins => cases there
  | opensReq session =>
    cases there
    exact .inr ⟨session, rfl, rfl⟩
  | givesUp _ _ follows => rcases follows with rfl | ⟨_, rfl⟩ <;> cases there
  | connects _ follows => rcases follows with rfl | rfl <;> exact .inl there
  | serves serves =>
    cases serves with
    | leaves | exits => cases there
    | closes follows =>
      rcases follows with rfl | ⟨_, rfl⟩
      · cases there
      · exact .inl there
    | _ => exact .inl there
  | _ => exact .inl there

/-- A worker about to store its request descriptor has just found the entry free. -/
theorem moves_reserved (moves : Moves process point effect moved) {connection : Connection}
    {index : Fin maxClients} (reserves : moved = .storing connection index .req) :
    point = .testing connection index ∧ effect = .none ∧
      (process.activeClients index).reqFd = 0 := by
  cases moves with
  | takes _ free =>
    cases reserves
    exact ⟨rfl, rfl, free⟩
  | givesUp _ _ follows => rcases follows with rfl | ⟨_, rfl⟩ <;> cases reserves
  | connects _ follows => rcases follows with rfl | rfl <;> cases reserves
  | serves serves =>
    cases serves with
    | closes follows => rcases follows with rfl | ⟨_, rfl⟩ <;> cases reserves
    | _ => cases reserves
  | _ => cases reserves

section Worker

variable {thread : Fin maxClients} {outside : Outside}

/-- What the condition says of a test. -/
theorem exclusive_test {connection : Connection} {index : Fin maxClients}
    (exclusive : Exclusive (.worker thread outside) process)
    (place : process.workers thread = .testing connection index) :
    if (process.activeClients index).reqFd = 0 then Unclaimed process thread index
    else Passable process thread index := by
  refine exclusive.1 (thread, index) ?_
  simp only [Process.testing, place, index.isLt, dif_pos]
  rfl

/-- An entry found free is unclaimed. -/
theorem unclaimed_of_free {connection : Connection} {index : Fin maxClients}
    (exclusive : Exclusive (.worker thread outside) process)
    (place : process.workers thread = .testing connection index)
    (free : (process.activeClients index).reqFd = 0) : Unclaimed process thread index := by
  have tested := exclusive_test exclusive place
  rwa [if_pos free] at tested

/-- An entry found taken can be passed. -/
theorem passable_of_taken {connection : Connection} {index : Fin maxClients}
    (exclusive : Exclusive (.worker thread outside) process)
    (place : process.workers thread = .testing connection index)
    (taken : (process.activeClients index).reqFd ≠ 0) : Passable process thread index := by
  have tested := exclusive_test exclusive place
  rwa [if_neg taken] at tested

/-- A scan is inside the array. -/
theorem OwnEntries.testing_inside (inv : OwnEntries process) {connection : Connection} {index : ℕ}
    (place : process.workers thread = .testing connection index) : index < maxClients := by
  refine inv.inside thread index ?_
  rw [place]
  rfl

theorem advances_inside (inv : OwnEntries process)
    (exclusive : Exclusive (.worker thread outside) process)
    (advances : Advances process (process.workers thread) moved) :
    ∀ index ∈ moved.index, index < maxClients := by
  generalize place : process.workers thread = point at advances
  cases advances with
  | leaves nowhere =>
    intro index there
    rw [nowhere] at there
    cases there
  | scans connection =>
    intro index there
    cases there
    decide
  | takes connection free =>
    intro index there
    cases there
    exact Fin.isLt _
  | passes connection taken =>
    intro index there
    cases there
    have passable := passable_of_taken exclusive place taken
    exact passable_inside inv place passable
  | misses connection past =>
    exact absurd (inv.testing_inside place) past
  | stays same =>
    intro index there
    rw [same, ← place] at there
    exact inv.inside thread index there

theorem advances_beside (inv : OwnEntries process)
    (exclusive : Exclusive (.worker thread outside) process)
    (advances : Advances process (process.workers thread) moved) {other : Fin maxClients}
    (different : other ≠ thread) :
    moved.Beside (process.workers other) ∧ (process.workers other).Beside moved := by
  have before := inv.beside thread other different.symm
  have behind := inv.beside other thread different
  generalize place : process.workers thread = point at advances before behind
  -- a worker that has taken nothing cannot collide
  have apart {moved : WorkerPoint} (untaken : moved.taken = none)
      (scanning : ∀ connection index, moved = .testing connection index → 0 < index →
        ∀ own ∈ (process.workers other).index, own < index)
      (scanned : ∀ connection index, process.workers other = .testing connection index →
        0 < index → ∀ own ∈ moved.index, own < index) :
      moved.Beside (process.workers other) ∧ (process.workers other).Beside moved := by
    refine ⟨⟨fun _ _ taken => ?_, scanning⟩, ⟨fun _ _ _ _ taken => ?_, scanned⟩⟩
    all_goals
      rw [untaken] at taken
      cases taken
  cases advances with
  | leaves nowhere =>
    refine apart ?_ ?_ ?_
    · cases taken : moved.taken with
      | none => rfl
      | some pair =>
        rw [WorkerPoint.index_of_taken taken] at nowhere
        cases nowhere
    · rintro connection index rfl
      cases nowhere
    · rw [nowhere]
      exact fun _ _ _ _ _ there => by cases there
  | scans connection =>
    refine apart rfl ?_ ?_
    · intro _ _ same positive
      cases same
      exact absurd positive (lt_irrefl 0)
    · intro _ index _ positive own there
      cases there
      exact positive
  | takes connection free =>
    rename_i index
    have unclaimed := unclaimed_of_free exclusive place free
    refine ⟨⟨?_, fun _ _ same => by cases same⟩, ⟨?_, behind.ahead⟩⟩
    · intro _ _ taken connection' taken'
      cases taken
      exact unclaimed.2 other different _ taken' rfl
    · intro _ _ taken' connection' taken
      cases taken
      exact unclaimed.2 other different _ taken' rfl
  | passes connection taken =>
    rename_i index
    have passable := passable_of_taken exclusive place taken
    have within := passable_inside inv place passable
    refine apart rfl ?_ ?_
    · intro _ _ same _ own there
      cases same
      rcases passable with ⟨owner, elsewhere, registered⟩ | ⟨-, behind⟩
      · rw [other_worker different elsewhere, (index_of_registeredBy registered).1] at there
        cases there
        exact Nat.lt_succ_self _
      · exact Nat.lt_succ_of_le (behind other different own there)
    · -- the other scans past the first entry, so the one passed now is the first
      intro _ further scans positive own there
      cases there
      rcases passable with ⟨owner, elsewhere, registered⟩ | ⟨-, behind'⟩
      · rw [other_worker elsewhere different] at registered
        exact absurd scans ((index_of_registeredBy registered).2 _ _)
      · have ahead := behind.ahead _ _ scans positive index rfl
        have behind := behind' other different further (by rw [scans]; rfl)
        omega
  | misses connection past =>
    exact absurd (inv.testing_inside place) past
  | stays same taken done =>
    refine ⟨⟨?_, fun _ _ again => absurd again (done _ _)⟩, ⟨?_, ?_⟩⟩
    · intro connection index now
      rcases taken with none | kept
      · rw [none] at now
        cases now
      · exact before.single connection index (kept ▸ now)
    · intro connection index there connection' now
      rcases taken with none | kept
      · rw [none] at now
        cases now
      · exact behind.single connection index there connection' (kept ▸ now)
    · rw [same]
      exact behind.ahead

theorem advances_closed (inv : OwnEntries process)
    (exclusive : Exclusive (.worker thread outside) process)
    (advances : Advances process (process.workers thread) moved) {index : Fin maxClients}
    (closed : process.host.hasClosed = some index) {connection : Connection}
    (taken : moved.taken = some (connection, index.val)) : connection.session ∈ process.cut := by
  have before := inv.closed index closed thread connection
  generalize place : process.workers thread = point at advances before
  cases advances with
  | leaves nowhere =>
    rw [WorkerPoint.index_of_taken taken] at nowhere
    cases nowhere
  | scans | passes => cases taken
  | takes connection' free =>
    rename_i own
    have unclaimed := unclaimed_of_free exclusive place free
    obtain ⟨-, same⟩ := Prod.mk.inj (Option.some.inj taken)
    rw [Fin.ext same] at unclaimed
    exact absurd (worksAt_of_hasClosed closed) unclaimed.1
  | misses connection past =>
    exact absurd (inv.testing_inside place) past
  | stays _ kept =>
    rcases kept with none | same
    · rw [none] at taken
      cases taken
    · exact before (same ▸ taken)

theorem fire_worker_own [DecidableEq τ] (inv : OwnEntries process)
    (exclusive : Exclusive (.worker thread outside) process)
    (fired : fire (.worker thread outside) process = some next) : OwnEntries next := by
  obtain ⟨effect, point, after, moves, opens, performed, rfl⟩ := fire_worker fired
  obtain ⟨-, -, host, -, entries, cut, -⟩ := perform_components performed
  obtain ⟨uncut, elsewhere⟩ := moves_stores moves
  rw [uncut, List.append_nil] at cut
  have advances := advances_of_moves moves
  -- no other worker has taken the entry this one stores in
  have untouched {other : Fin maxClients} (different : other ≠ thread) {connection : Connection}
      {index : Fin maxClients}
      (taken : (process.workers other).taken = some (connection, index.val)) :
      process.activeClientsAfter effect index = process.activeClients index :=
    elsewhere index fun own mine =>
      (inv.beside thread other different.symm).single own index mine connection taken
  refine ⟨?_, ?_, ?_, ?_, ?_, ?_⟩
  · exact (Function.forall_update_iff process.workers fun _ point =>
      ∀ index ∈ point.index, index < maxClients).mpr
      ⟨advances_inside inv exclusive advances, fun other _ => inv.inside other⟩
  · exact pairs_update inv.beside
      (fun other different => (advances_beside inv exclusive advances different).1)
      (fun other different => (advances_beside inv exclusive advances different).2)
  · intro worker connection index place
    show (after.activeClients index).reqFd = 0 ∧ after.host.worksAt ≠ some index
    rw [entries, host]
    by_cases mover : worker = thread
    · subst mover
      obtain ⟨tested, rfl, free⟩ :=
        moves_reserved moves ((Function.update_self ..).symm.trans place)
      exact ⟨free, (unclaimed_of_free exclusive tested free).1⟩
    · have place := (Function.update_of_ne mover ..).symm.trans place
      rw [untouched mover (by rw [place]; rfl)]
      exact inv.reserved worker connection index place
  · intro index closed worker connection taken
    show connection.session ∈ after.cut
    have before : process.host.hasClosed = some index := host ▸ closed
    rw [cut]
    by_cases mover : worker = thread
    · subst mover
      exact advances_closed inv exclusive advances before
        ((congrArg WorkerPoint.taken (Function.update_self ..)).symm.trans taken)
    · exact inv.closed index before worker connection
        ((congrArg WorkerPoint.taken (Function.update_of_ne mover ..)).symm.trans taken)
  · show ∀ worker, (Function.update process.workers thread point worker).Recorded
      after.activeClients after.cut
    rw [entries, cut]
    refine (Function.forall_update_iff process.workers fun _ point =>
      point.Recorded (process.activeClientsAfter effect) process.cut).mpr
      ⟨moves_recorded (inv.recorded thread) (inv.inside thread) moves, fun other different => ?_⟩
    exact (inv.recorded other).of_same (List.Subset.refl _)
      fun connection index taken _ => untouched different taken
  · refine (Function.forall_update_iff process.workers fun _ point =>
      ∀ fd ∈ point.req, fd ≠ 0).mpr ⟨fun fd there => ?_, fun other _ => inv.nonzero other⟩
    rcases moves_req moves there with before | ⟨session, rfl, rfl⟩
    · exact inv.nonzero thread fd before
    · exact exclusive.2 _ (opens _ rfl) rfl

end Worker

/-! ### The steps of the host and of a job -/

/-- Workers and entries stay as they are. Then the host must not come to an entry where a worker is
about to store, and what it has closed must be cut off. -/
theorem OwnEntries.of_entries (inv : OwnEntries process)
    (workers : next.workers = process.workers)
    (entries : next.activeClients = process.activeClients) (more : process.cut ⊆ next.cut)
    (reserved : ∀ worker connection index,
      process.workers worker = .storing connection index .req → next.host.worksAt ≠ some index)
    (closed : ∀ index, next.host.hasClosed = some index → ∀ worker connection,
      (process.workers worker).taken = some (connection, index.val) →
        connection.session ∈ next.cut) : OwnEntries next where
  inside := workers ▸ inv.inside
  beside := workers ▸ inv.beside
  reserved worker connection index place := by
    rw [workers] at place
    rw [entries]
    exact ⟨(inv.reserved worker connection index place).1, reserved worker connection index place⟩
  closed := by
    rw [workers]
    exact closed
  recorded worker := by
    rw [workers, entries]
    exact (inv.recorded worker).of_same more fun _ _ _ _ => rfl
  nonzero := workers ▸ inv.nonzero

/-- A session that has stored its request descriptor is cut off with its entry. -/
theorem mem_newlyCut {worker : Fin maxClients} {connection : Connection} {index : Fin maxClients}
    (taken : (process.workers worker).taken = some (connection, index.val))
    (stored : process.workers worker ≠ .storing connection index .req) :
    connection.session ∈ process.newlyCut (.hostCloses index .req) := by
  refine List.mem_filterMap.mpr ⟨worker, List.mem_finRange worker, ?_⟩
  generalize process.workers worker = point at taken stored
  cases point with
  | storing own place field =>
    cases field with
    | req =>
      obtain ⟨rfl, same⟩ := Prod.mk.inj (Option.some.inj taken)
      rw [Fin.ext same] at stored
      exact absurd rfl stored
    | resp | notif =>
      obtain ⟨rfl, same⟩ := Prod.mk.inj (Option.some.inj taken)
      exact if_pos same
  | serving own place =>
    obtain ⟨rfl, same⟩ := Prod.mk.inj (Option.some.inj taken)
    exact if_pos same
  | _ => cases taken

/-- The host closes a field of an entry. -/
theorem hostCloses_own (inv : OwnEntries process) {index : Fin maxClients} {field : Field}
    (place : process.host = .closing index field) (workers : next.workers = process.workers)
    (entries : next.activeClients = process.activeClients)
    (cut : next.cut = process.cut ++ process.newlyCut (.hostCloses index field))
    (works : next.host.worksAt = some index) : OwnEntries next := by
  have reserved : ∀ worker connection own,
      process.workers worker = .storing connection own .req → own ≠ index := by
    rintro worker connection own storing rfl
    have before := (inv.reserved worker connection own storing).2
    rw [place] at before
    exact before rfl
  refine inv.of_entries workers entries (by rw [cut]; exact List.subset_append_left _ _) ?_ ?_
  · rintro worker connection own storing same
    rw [works] at same
    exact reserved worker connection own storing (Option.some.inj same).symm
  · intro own reached worker connection taken
    have same := (worksAt_of_hasClosed reached).symm.trans works
    cases same
    rw [cut]
    cases field with
    | req =>
      exact List.mem_append_right _
        (mem_newlyCut taken fun storing => reserved _ _ _ storing rfl)
    | resp | notif =>
      exact List.mem_append_left _ (inv.closed index (by rw [place]; rfl) worker connection taken)

/-- The host clears a field of an entry whose session is cut off. -/
theorem hostClears_own (inv : OwnEntries process) {index : Fin maxClients} {field : Field}
    {value : Fd} (place : process.host = .clearing index field)
    (workers : next.workers = process.workers)
    (entries : next.activeClients = process.activeClientsAfter (.stores index field value))
    (cut : next.cut = process.cut)
    (works : next.host.worksAt = some index ∨ next.host.worksAt = none) : OwnEntries next := by
  have closed : ∀ worker connection,
      (process.workers worker).taken = some (connection, index.val) →
        connection.session ∈ process.cut :=
    inv.closed index (by rw [place]; rfl)
  have worksAt : process.host.worksAt = some index := by rw [place]; rfl
  have others {own : Fin maxClients} (different : own ≠ index) :
      next.activeClients own = process.activeClients own := by
    rw [entries]
    exact Function.update_of_ne different _ _
  refine ⟨workers ▸ inv.inside, workers ▸ inv.beside, ?_, ?_, ?_, workers ▸ inv.nonzero⟩
  · intro worker connection own storing
    rw [workers] at storing
    have before := inv.reserved worker connection own storing
    have different : own ≠ index := by
      rintro rfl
      exact before.2 worksAt
    refine ⟨by rw [others different]; exact before.1, fun same => ?_⟩
    rcases works with still | none
    · exact different (Option.some.inj (same.symm.trans still))
    · rw [none] at same
      cases same
  · intro own reached worker connection taken
    rw [workers] at taken
    rw [cut]
    have there := worksAt_of_hasClosed reached
    rcases works with still | none
    · cases there.symm.trans still
      exact closed worker connection taken
    · rw [none] at there
      cases there
  · intro worker
    rw [workers, cut]
    refine (inv.recorded worker).of_same (List.Subset.refl _) fun connection own taken uncut => ?_
    refine others ?_
    rintro rfl
    exact uncut (closed worker connection taken)

theorem fire_host_own [DecidableEq τ] {outside : Outside} (inv : OwnEntries process)
    (fired : fire (.host outside) process = some next) : OwnEntries next := by
  obtain ⟨effect, point, after, stepped, performed, rfl⟩ := fire_host fired
  obtain ⟨workers, -, -, -, entries, cut, -⟩ := perform_components performed
  -- away from the entries, the host only has to keep off those about to be taken
  have aside (quiet : process.activeClientsAfter effect = process.activeClients)
      (uncut : process.newlyCut effect = [])
      (free : ∀ index, point.worksAt = some index → (process.activeClients index).reqFd ≠ 0)
      (open' : point.hasClosed = none) : OwnEntries { after with host := point } := by
    rw [uncut, List.append_nil] at cut
    refine inv.of_entries workers (entries.trans quiet) (by rw [← cut]; exact List.Subset.refl _)
      (fun worker connection index storing works => ?_) (fun index reached => ?_)
    · exact free index works (inv.reserved worker connection index storing).1
    · exact absurd (open'.symm.trans reached) (by simp)
  generalize place : process.host = old at stepped
  cases old with
  | idle =>
    cases outside with
    | arrives =>
      cases stepped
      exact aside rfl rfl (fun _ works => by cases works) rfl
    | _ => cases stepped
  | testing index =>
    simp only [hostStep] at stepped
    split at stepped
    · split at stepped
      · rename_i occupied
        cases stepped
        refine aside rfl rfl (fun own works => ?_) rfl
        cases works
        exact occupied
      · cases stepped
        exact aside rfl rfl (fun _ works => by cases works) rfl
    · cases stepped
      exact aside rfl rfl (fun _ works => by cases works) rfl
  | closing index field =>
    cases stepped
    exact hostCloses_own inv place workers entries cut (by cases field <;> rfl)
  | clearing index field =>
    cases stepped
    exact hostClears_own inv place workers entries (by rw [cut]; exact List.append_nil _)
      (by cases field <;> simp [HostPoint.worksAt])
  | disconnecting =>
    cases stepped
    exact aside rfl rfl (fun _ works => by cases works) rfl

theorem fire_job_own [DecidableEq τ] {thread : τ} {outside : Outside} (inv : OwnEntries process)
    (fired : fire (.job thread outside) process = some next) : OwnEntries next := by
  obtain ⟨effect, point, after, works, -, performed, rfl⟩ := fire_job fired
  obtain ⟨workers, -, host, -, entries, cut, -⟩ := perform_components performed
  have quiet : process.activeClientsAfter effect = process.activeClients ∧
      process.newlyCut effect = [] := by
    generalize process.jobs thread = old at works
    cases works with
    | moves files => rcases files with rfl | ⟨_, rfl⟩ | ⟨_, rfl⟩ <;> exact ⟨rfl, rfl⟩
    | sends _ _ _ _ writes => rcases writes with rfl | ⟨_, _, _, rfl⟩ <;> exact ⟨rfl, rfl⟩
    | _ => exact ⟨rfl, rfl⟩
  rw [quiet.2, List.append_nil] at cut
  refine inv.of_entries workers (entries.trans quiet.1) (by rw [← cut]; exact List.Subset.refl _)
    (fun worker connection index storing => ?_) (fun index reached worker connection taken => ?_)
  · show after.host.worksAt ≠ some index
    rw [host]
    exact (inv.reserved worker connection index storing).2
  · show connection.session ∈ after.cut
    rw [cut]
    exact inv.closed index (host ▸ reached) worker connection taken

/-! ### Runs -/

theorem start_own (opened : ℕ) : OwnEntries (start opened : Process τ) where
  inside _ _ there := by cases there
  beside _ _ _ :=
    { single := fun _ _ taken => by cases taken
      ahead := fun _ _ same => by cases same }
  reserved _ _ _ place := by cases place
  closed _ reached := by cases reached
  recorded _ := trivial
  nonzero _ _ there := by cases there

/-- **The step lemma.** -/
theorem fire_own [DecidableEq τ] {turn : Process.Turn τ} (inv : OwnEntries process)
    (exclusive : Exclusive turn process) (fired : fire turn process = some next) :
    OwnEntries next := by
  cases turn with
  | worker thread outside => exact fire_worker_own inv exclusive fired
  | host outside => exact fire_host_own inv fired
  | job thread outside => exact fire_job_own inv fired

/-- **Sessions have entries of their own.** In every run whose steps are exclusive, every index
`run_client_requests` runs with is inside `active_clients`, no two sessions run with one, and a
session that has not come to its own DISCONNECT and is not cut off by a SIGUSR1 has its descriptors
in the entry of its index, where the next SIGUSR1 finds them. -/
theorem sessions_own_entries [DecidableEq τ] (opened : ℕ) (turns : List (Process.Turn τ))
    (final : Process τ) (exclusive : Meets fire Exclusive turns (start opened))
    (ran : run fire turns (start opened) = some final) :
    SessionsOwnEntries final := by
  have inv := run_keeps_of_meets (fun _ _ _ inv exclusive fired => fire_own inv exclusive fired)
    (start_own opened) exclusive ran
  have within {worker connection index place}
      (serves : final.workers worker = .serving connection index place) : index < maxClients :=
    inv.inside worker index (by rw [serves]; rfl)
  refine ⟨fun _ _ _ _ => within, ?_, ?_⟩
  · intro worker other connection connection' index place place' serves serves'
    by_contra different
    exact (inv.beside worker other different).single connection index (by rw [serves]; rfl)
      connection' (by rw [serves']; rfl)
  · intro worker connection index place serves live uncut
    have recorded := inv.recorded worker
    rw [serves] at recorded
    exact ⟨within serves, recorded live uncut (within serves),
      inv.nonzero worker _ (by rw [serves]; rfl)⟩

/-- Two sessions take both entries, a SIGUSR1 clears them, and the first worker, which notices at
its second read, takes its entry again. -/
def reusedEntry : List (Process.Turn (Fin 1)) :=
  connectTurns 0 ++ connectTurns 1 ++ [.worker 1 .nothing, .host .arrives] ++
    List.replicate 16 (.host .nothing) ++ [.worker 0 (.noCode false), .worker 0 .nothing] ++
    connectTurns 0

theorem reusedEntry_runs : (run fire reusedEntry (start 3 : Process (Fin 1))).isSome := by
  decide

theorem reusedEntry_own :
    ∃ final, run fire reusedEntry (start 3 : Process (Fin 1)) = some final ∧
      SessionsOwnEntries final :=
  ⟨_, (Option.some_get reusedEntry_runs).symm,
    sessions_own_entries 3 _ _ (by decide) (Option.some_get reusedEntry_runs).symm⟩

/-- A worker finds the first entry free, and before it stores anything another one finds it free as
well: both run with index `0`. -/
theorem entry_taken_twice :
    ∃ final, run fire ((connectTurns 0).take 6 ++ connectTurns 1 ++ (connectTurns 0).drop 6)
        (start 3 : Process (Fin 1)) = some final ∧
      ¬ SessionsOwnEntries final := by
  refine ⟨_, rfl, ?_⟩
  intro owned
  have := owned.single 0 1 ⟨0, 3, 4, 5⟩ ⟨1, 6, 7, 8⟩ 0 (.reading .op) (.reading .op) rfl rfl
  exact absurd this (by decide)

end Kvs.Server
