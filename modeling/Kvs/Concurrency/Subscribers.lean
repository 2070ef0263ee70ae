/-
**Who is notified.**

A slot holds a bare descriptor number. `Process.owners` remembers whose SUBSCRIBE stored it, and the
number is honoured in the sense of `DescriptorTable` as long as no open returns it for a file that
can be written. `KeepsSubscribers` is what a step must not do: open such a file under the number of
a slot, or carry out a SUBSCRIBE whose number is another's by now, or was closed by a SIGUSR1 whose
handling is over. Then every frame goes to the pipe of the session that subscribed, and the slots
hold no number that `close_all_clients` closed: `frames_reach_subscriber`.

A job holds the table's lock from its first call to its last, so the slots stay as they are while
its frames are written.
-/

import Kvs.Server.Effects
import Kvs.Store.Notification
import Kvs.Store.Slots

namespace Kvs.Server

open DescriptorTable Interleaving Process

/-! ### What must not happen -/

/-- The session and key of the SUBSCRIBE that a turn carries out. -/
def Process.subscribing {τ : Type} (process : Process τ) :
    Process.Turn τ → Option (Connection × Key)
  | .worker thread _ =>
    match process.workers thread with
    | .serving connection _ (.changing .subscribe key) => some (connection, key)
    | _ => none
  | .host _ | .job _ _ => none

/-- A session may subscribe: its descriptor is not another's by now, and was not closed by a SIGUSR1
whose handling is over. -/
def MaySubscribe {τ : Type} (process : Process τ) (connection : Connection) : Prop :=
  (∀ found ∈ file process.files connection.notifFd, found.writable →
    found = .notification connection.session) ∧
  .notification connection.session ∉ process.swept

instance {τ : Type} (process : Process τ) (connection : Connection) :
    Decidable (MaySubscribe process connection) :=
  inferInstanceAs (Decidable (_ ∧ _))

/-- **The condition.** No open of a file for writing returns a number that a slot holds, and a
SUBSCRIBE that fills a slot is one of a session that may subscribe. -/
def KeepsSubscribers {τ : Type} (turn : Process.Turn τ) (process : Process τ) : Prop :=
  (∀ new ∈ process.opening turn, new.writable → ∀ node ∈ process.table.nodes,
    ∀ fd ∈ node.subscribersFds.fds, fd ≠ 0 → lowest process.files ≠ fd.toNat) ∧
  ∀ request ∈ process.subscribing turn, process.table.HasRoom request.2.1 →
    MaySubscribe process request.1

instance {τ : Type} (turn : Process.Turn τ) (process : Process τ) :
    Decidable (KeepsSubscribers turn process) :=
  inferInstanceAs (Decidable (_ ∧ _))

/-- Every frame went to the pipe of the session whose SUBSCRIBE filled the slot, and no slot holds a
descriptor `close_all_clients` had closed when `disconnect_all` last returned. -/
structure SubscribersOnly {τ : Type} (process : Process τ) : Prop where
  frames : ∀ owner file, .notified owner file ∈ process.log → file = .notification owner
  slots : ∀ key index, process.table.slot key index ≠ 0 →
    .notification (process.owners key index) ∉ process.swept

/-! ### The invariant -/

variable {τ : Type} {process after next : Process τ} {effect : Effect τ}

/-- The number is honoured for the session whose SUBSCRIBE stored it. -/
abbrev Reaches (files : Table File) (fd : Fd) (owner : ℕ) : Prop :=
  Honoured (File.writable ·) (.notification owner) fd.toNat files

/-- A slot holds the number, and it is the session's. -/
def Holds (table : HashTable) (owners : CStr → ℕ → ℕ) (fd : Fd) (owner : ℕ) : Prop :=
  ∃ key index, table.slot key index = fd ∧ fd ≠ 0 ∧ owners key index = owner

/-- A job within a command has the lock, and its frames are for slots. -/
def JobPoint.Sound (process : Process τ) (thread : τ) : JobPoint → Prop
  | .holding _ _ _ => process.lock = some thread
  | .notifying _ _ frames after _ =>
    process.lock = some thread ∧ after.WellFormed ∧ after.NoFuller process.table ∧
      ∀ frame ∈ frames, Holds process.table process.owners frame.fd frame.owner
  | _ => True

/-- Every number in a slot reaches the session that subscribed. -/
structure Delivers (process : Process τ) : Prop where
  wellFormed : process.table.WellFormed
  slots : ∀ fd owner, Holds process.table process.owners fd owner → Reaches process.files fd owner
  jobs : ∀ thread, (process.jobs thread).Sound process thread
  log : ∀ owner file, .notified owner file ∈ process.log → file = .notification owner
  swept : ∀ fd owner, Holds process.table process.owners fd owner →
    .notification owner ∉ process.swept

/-! ### Slots -/

/-- A table that is no fuller holds no more. -/
theorem Holds.of_noFuller {table ht : HashTable} {owners : CStr → ℕ → ℕ} {fd : Fd} {owner : ℕ}
    (emptier : table.NoFuller ht) (holds : Holds table owners fd owner) :
    Holds ht owners fd owner := by
  obtain ⟨key, index, stored, used, owned⟩ := holds
  refine ⟨key, index, ?_, used, owned⟩
  rcases emptier key index with same | empty
  · rw [← same, stored]
  · exact absurd (stored.symm.trans empty) used

/-- The slot a SUBSCRIBE fills is the session's, and every other slot is whose it was. -/
theorem ownersAfter_eq {table : HashTable} {owners : CStr → ℕ → ℕ} {key other : CStr}
    {session index : ℕ} (elsewhere : other = key → ∀ node ∈ table.lookup key,
      index ≠ node.subscribersFds.fds.idxOf 0) :
    ownersAfter table owners key session other index = owners other index := by
  unfold ownersAfter
  cases found : table.lookup key with
  | none => rfl
  | some node =>
    show Function.update owners key _ other index = owners other index
    by_cases same : other = key
    · subst same
      rw [Function.update_self, Function.update_of_ne (elsewhere rfl node found)]
    · rw [Function.update_of_ne same]

theorem ownersAfter_self {table : HashTable} {owners : CStr → ℕ → ℕ} {key : CStr} {session : ℕ}
    {node : KeyNode} (found : table.lookup key = some node) :
    ownersAfter table owners key session key (node.subscribersFds.fds.idxOf 0) = session := by
  unfold ownersAfter
  rw [found]
  show Function.update owners key _ key _ = session
  rw [Function.update_self, Function.update_self]

/-- A session's `subscribe` stores its descriptor where there is room, and nothing else. -/
theorem holds_of_subscribes {key : Key} {connection : Connection} {fd : Fd} {owner : ℕ}
    (wf : process.table.WellFormed)
    (performed : process.perform (.subscribes key connection) = some after)
    (holds : Holds after.table after.owners fd owner) :
    Holds process.table process.owners fd owner ∨
      process.table.HasRoom key.1 ∧ fd = connection.notifFd ∧ owner = connection.session := by
  obtain ⟨operated, executed, rfl⟩ := Option.map_eq_some_iff.mp performed
  obtain ⟨-, outcome, called, rfl⟩ := operate_eq_some executed
  obtain ⟨other, index, stored, used, owned⟩ := holds
  obtain ⟨-, filled⟩ := writeSubscription_slot wf called
  rcases filled other index with same | ⟨rfl, stores, node, found, empty, first⟩
  · left
    refine ⟨other, index, by rw [← same, stored], used, ?_⟩
    rw [← owned]
    refine (ownersAfter_eq ?_).symm
    rintro rfl node found first
    -- the slot would have been empty, and would still be
    have before : process.table.slot key.1 index = 0 := by
      rw [slot_of_present found, first, node.slot_idxOf_zero]
    exact used (by rw [← stored, same, before])
  · right
    refine ⟨⟨node, found, empty⟩, by rw [← stored, stores], ?_⟩
    rw [← owned, first]
    exact ownersAfter_self found

/-! ### What an effect keeps -/

/-- An effect that leaves the table, its owners and its lock alone. -/
def Effect.Plain : Effect τ → Prop
  | .operates _ | .subscribes _ _ | .sweeps | .locks _ | .unlocks | .leaves _ => False
  | _ => True

theorem perform_plain (plain : effect.Plain) (performed : process.perform effect = some after) :
    after.table = process.table ∧ after.owners = process.owners ∧ after.lock = process.lock ∧
      after.swept = process.swept := by
  cases effect with
  | operates | subscribes | sweeps | locks | unlocks | leaves => cases plain
  | _ =>
    cases performed
    exact ⟨rfl, rfl, rfl, rfl⟩

/-- A job without the lock is not within a command. -/
theorem JobPoint.Sound.of_without {thread : τ} {place : JobPoint}
    (without : process.lock ≠ some thread) (sound : place.Sound process thread) :
    place.Sound after thread := by
  cases place with
  | holding => exact absurd sound without
  | notifying => exact absurd sound.1 without
  | _ => trivial

theorem JobPoint.Sound.of_free {thread : τ} {place : JobPoint} (free : process.lock = none)
    (sound : place.Sound process thread) : place.Sound after thread :=
  sound.of_without (by simp [free])

/-- While table, owners and lock stay, so does all that a job relies on. -/
theorem JobPoint.Sound.of_same {thread : τ} {place : JobPoint}
    (table : after.table = process.table) (owners : after.owners = process.owners)
    (lock : after.lock = process.lock) (sound : place.Sound process thread) :
    place.Sound after thread := by
  cases place with
  | holding => exact lock.trans sound
  | notifying inFd outFd frames leaves calls =>
    obtain ⟨held, wf, emptier, covered⟩ := sound
    refine ⟨lock.trans held, wf, table ▸ emptier, fun frame member => ?_⟩
    obtain ⟨key, index, stored, used, owned⟩ := covered frame member
    exact ⟨key, index, by rw [table, stored], used, by rw [owners, owned]⟩
  | _ => trivial

/-- An effect that leaves the table alone. -/
theorem plain_delivers (inv : Delivers process) (plain : effect.Plain)
    (apart : ∀ new, effect = .opens new → new.writable → ∀ fd owner,
      Holds process.table process.owners fd owner → lowest process.files ≠ fd.toNat)
    (reaches : ∀ owner found, .notified owner found ∈ transferred effect →
      found = .notification owner)
    (performed : process.perform effect = some after) : Delivers after := by
  obtain ⟨table, owners, lock, swept⟩ := perform_plain plain performed
  obtain ⟨-, jobs, -, files, -, -, log⟩ := perform_components performed
  have held {fd owner} (holds : Holds after.table after.owners fd owner) :
      Holds process.table process.owners fd owner := by rwa [table, owners] at holds
  refine ⟨by rw [table]; exact inv.wellFormed, fun fd owner holds => ?_, fun thread => ?_,
    fun owner found logged => ?_, fun fd owner holds => ?_⟩
  · have reaching := inv.slots fd owner (held holds)
    rw [files]
    exact filesAfter_induction (fun files => Reaches files fd owner) reaching
      (fun new opens => reaching.opened fun usable => apart new opens usable fd owner (held holds))
      (fun number => reaching.closed number)
  · rw [jobs]
    exact (inv.jobs thread).of_same table owners lock
  · rw [log] at logged
    rcases List.mem_append.mp logged with before | now
    · exact inv.log owner found before
    · exact reaches owner found now
  · rw [swept]
    exact inv.swept fd owner (held holds)

/-- An operation that fills no slot. -/
theorem operates_delivers (inv : Delivers process) {op : StoreOp}
    (other : ∀ key fd, op ≠ .writeSubscription key fd)
    (operated : process.operate op = some after) : Delivers after := by
  obtain ⟨free, outcome, executed, rfl⟩ := operate_eq_some operated
  obtain ⟨wf, emptier⟩ := exec_noFuller inv.wellFormed other executed
  exact
    { wellFormed := wf
      slots fd owner holds := inv.slots fd owner (holds.of_noFuller emptier)
      jobs thread := (inv.jobs thread).of_free free
      log := inv.log
      swept fd owner holds := inv.swept fd owner (holds.of_noFuller emptier) }

/-- The SUBSCRIBE of a session that may. -/
theorem subscribes_delivers (inv : Delivers process) {key : Key} {connection : Connection}
    (may : process.table.HasRoom key.1 → MaySubscribe process connection)
    (performed : process.perform (.subscribes key connection) = some after) : Delivers after := by
  have held {fd owner} (holds : Holds after.table after.owners fd owner) :=
    holds_of_subscribes inv.wellFormed performed holds
  obtain ⟨operated, executed, rfl⟩ := Option.map_eq_some_iff.mp performed
  obtain ⟨free, outcome, called, rfl⟩ := operate_eq_some executed
  refine ⟨(writeSubscription_slot inv.wellFormed called).1, fun fd owner holds => ?_,
    fun thread => (inv.jobs thread).of_free free, inv.log, fun fd owner holds => ?_⟩
  · rcases held holds with before | ⟨room, rfl, rfl⟩
    · exact inv.slots fd owner before
    · exact fun found there usable => (may room).1 found there usable
  · rcases held holds with before | ⟨room, rfl, rfl⟩
    · exact inv.swept fd owner before
    · exact (may room).2

/-- `disconnect_all`, after which no slot holds anything. -/
theorem sweeps_delivers (inv : Delivers process)
    (performed : process.perform .sweeps = some after) : Delivers after := by
  obtain ⟨operated, executed, rfl⟩ := Option.map_eq_some_iff.mp performed
  have inv' := operates_delivers inv (fun _ _ same => by cases same) executed
  obtain ⟨-, outcome, called, rfl⟩ := operate_eq_some executed
  cases called
  refine ⟨inv'.wellFormed, inv'.slots, inv'.jobs, inv'.log, ?_⟩
  rintro fd owner ⟨key, index, stored, used, -⟩
  exact absurd (stored.symm.trans (disconnectAll_slot process.table key index)) used

/-! ### The step of a thread -/

/-- The three kinds of effects of a worker's step. -/
theorem moves_effect {point moved : WorkerPoint} (moves : Moves process point effect moved) :
    (effect.Plain ∧ ∀ owner found, .notified owner found ∉ transferred effect) ∨
    (∃ op, effect = .operates op ∧ ∀ key fd, op ≠ .writeSubscription key fd) ∨
    ∃ connection index key, point = .serving connection index (.changing .subscribe key) ∧
      effect = .subscribes key connection := by
  have responded {connection : Connection} (responds : effect.Responds process connection) :
      effect.Plain ∧ ∀ owner found, .notified owner found ∉ transferred effect := by
    rcases responds with rfl | ⟨_, _, _, rfl⟩ <;> simp [Effect.Plain, transferred]
  cases moves with
  | givesUp _ closes =>
    left
    rcases closes with rfl | ⟨_, rfl⟩ <;> simp [Effect.Plain, transferred]
  | connects responds => exact .inl (responded responds)
  | serves serves =>
    cases serves with
    | reads reads =>
      left
      rcases reads with rfl | rfl <;> simp [Effect.Plain, transferred]
    | subscribes key => exact .inr (.inr ⟨_, _, key, rfl, rfl⟩)
    | unsubscribes key => exact .inr (.inl ⟨_, rfl, fun _ _ same => by cases same⟩)
    | responds responds => exact .inl (responded responds)
    | disconnects => exact .inr (.inl ⟨_, rfl, fun _ _ same => by cases same⟩)
    | _ => exact .inl (by simp [Effect.Plain, transferred])
  | _ => exact .inl (by simp [Effect.Plain, transferred])

/-- The host closes and clears, and at last has all subscriptions dropped. -/
theorem hostStep_effect {outside : Outside} {place moved : HostPoint}
    (stepped : process.hostStep outside place = some (effect, moved)) :
    effect.Plain ∨ effect = .sweeps := by
  cases place with
  | idle =>
    cases outside with
    | arrives =>
      cases stepped
      exact .inl trivial
    | _ => cases stepped
  | testing index =>
    simp only [hostStep] at stepped
    split at stepped
    · split at stepped <;> cases stepped
      · exact .inl trivial
      · exact .inl trivial
    · cases stepped
      exact .inl trivial
  | closing index field | clearing index field =>
    cases stepped
    exact .inl trivial
  | disconnecting =>
    cases stepped
    exact .inr rfl

/-- The frames of a call are for the slots of its key. -/
theorem holds_of_framesOfCall {call : PairOp} {frame : Frame}
    (member : frame ∈ process.framesOfCall call) :
    Holds process.table process.owners frame.fd frame.owner := by
  have ofKey {key : CStr} (member : frame ∈ process.framesOf key) :
      Holds process.table process.owners frame.fd frame.owner := by
    unfold framesOf at member
    cases found : process.table.lookup key with
    | none =>
      rw [found] at member
      cases member
    | some node =>
      rw [found] at member
      obtain ⟨⟨fd, index⟩, filtered, rfl⟩ := List.mem_map.mp member
      obtain ⟨there, used⟩ := List.mem_filter.mp filtered
      refine ⟨key, index, ?_, of_decide_eq_true used, rfl⟩
      rw [slot_of_present found, KeyNode.slot, List.getD_eq_getElem?_getD,
        List.mem_zipIdx_iff_getElem?.mp there, Option.getD_some]
  cases call with
  | write key value => exact ofKey member
  | read key => cases member
  | delete key => exact ofKey member

/-- **The frames of a call** are written where `write_pair` and `delete_pair` send them. -/
theorem framesOfCall_sent (wf : process.table.WellFormed) {call : PairOp} {entry : Entry}
    {table : HashTable} (executed : call.exec process.table = .ok (entry, table)) :
    (process.framesOfCall call).map Frame.fd = entry.sent.map Notification.fd := by
  have ofKey {key text : CStr} {node : KeyNode} (found : process.table.lookup key = some node) :
      (process.framesOf key).map Frame.fd =
        (notifySubscribers node.subscribersFds key text).map Notification.fd := by
    have indexed := List.zipIdx_map_fst 0 node.subscribersFds.fds
    simp only [framesOf, found, List.map_map, notifySubscribers, Slots.occupied]
    nth_rewrite 2 [← indexed]
    rw [List.filter_map, List.map_map]
    rfl
  cases call with
  | write key value =>
    cases found : process.table.lookup key.1 with
    | none =>
      obtain ⟨_, called, -, -⟩ := writePair_absent wf key value found
      rw [PairOp.exec, called] at executed
      cases executed
      simp [framesOfCall, framesOf, found]
    | some node =>
      obtain ⟨_, called, -, -⟩ := writePair_present wf key value found
      rw [PairOp.exec, called] at executed
      cases executed
      exact ofKey found
  | read key =>
    rw [PairOp.exec, readPair_spec] at executed
    cases executed
    rfl
  | delete key =>
    cases found : process.table.lookup key.1 with
    | none =>
      rw [PairOp.exec, deletePair_absent key found] at executed
      cases executed
      simp [framesOfCall, framesOf, found]
    | some node =>
      obtain ⟨_, called, -, -⟩ := deletePair_present wf key found
      rw [PairOp.exec, called] at executed
      cases executed
      exact ofKey found

/-- What the condition says of the slots, whatever table they are in. -/
theorem KeepsSubscribers.apart {turn : Process.Turn τ} (keeps : KeepsSubscribers turn process)
    (opens : ∀ new, effect = .opens new → process.opening turn = some new) :
    ∀ new, effect = .opens new → new.writable → ∀ fd owner,
      Holds process.table process.owners fd owner → lowest process.files ≠ fd.toNat := by
  rintro new opened usable _ owner ⟨key, index, rfl, used, -⟩
  obtain ⟨node, member, slot⟩ := slot_mem_nodes used
  exact keeps.1 new (opens new opened) usable node member _ slot used

section Fire

variable [DecidableEq τ] {outside : Outside}

theorem fire_worker_delivers {thread : Fin maxClients} (inv : Delivers process)
    (keeps : KeepsSubscribers (.worker thread outside) process)
    (fired : fire (.worker thread outside) process = some next) : Delivers next := by
  obtain ⟨effect, point, after, moves, opens, performed, rfl⟩ := fire_worker fired
  have inv' : Delivers after := by
    rcases moves_effect moves with ⟨plain, silent⟩ | ⟨op, rfl, other⟩ |
      ⟨connection, index, key, place, rfl⟩
    · exact plain_delivers inv plain (keeps.apart opens)
        (fun owner found logged => absurd logged (silent owner found)) performed
    · exact operates_delivers inv other performed
    · have request : process.subscribing (.worker thread outside) = some (connection, key) := by
        simp only [subscribing, place]
      exact subscribes_delivers inv (keeps.2 _ request) performed
  exact ⟨inv'.wellFormed, inv'.slots, inv'.jobs, inv'.log, inv'.swept⟩

theorem fire_host_delivers (inv : Delivers process)
    (fired : fire (.host outside) process = some next) : Delivers next := by
  obtain ⟨effect, point, after, stepped, performed, rfl⟩ := fire_host fired
  obtain ⟨unopened, silent⟩ := hostStep_quiet stepped
  have inv' : Delivers after := by
    rcases hostStep_effect stepped with plain | rfl
    · exact plain_delivers inv plain (fun new opens => absurd opens (unopened new))
        (fun owner found logged => by rw [silent] at logged; cases logged) performed
    · exact sweeps_delivers inv performed
  exact ⟨inv'.wellFormed, inv'.slots, inv'.jobs, inv'.log, inv'.swept⟩

theorem fire_job_delivers {thread : τ} (inv : Delivers process)
    (keeps : KeepsSubscribers (.job thread outside) process)
    (fired : fire (.job thread outside) process = some next) : Delivers next := by
  obtain ⟨effect, point, after, works, opens, performed, rfl⟩ := fire_job fired
  have sound := inv.jobs thread
  generalize process.jobs thread = old at works sound
  -- the threads that stay where they are, and the one that moves on
  have settles {after : Process τ} {point : JobPoint}
      (others : ∀ other ≠ thread, (process.jobs other).Sound after other)
      (moved : point.Sound after thread) :
      ∀ other, (Function.update process.jobs thread point other).Sound after other :=
    (Function.forall_update_iff process.jobs fun other place => place.Sound after other).mpr
      ⟨moved, others⟩
  have quiet (plain : effect.Plain)
      (reaches : ∀ owner found, .notified owner found ∈ transferred effect →
        found = .notification owner) : Delivers after :=
    plain_delivers inv plain (keeps.apart opens) reaches performed
  cases works with
  | moves files before rest =>
    have inv' : Delivers after := by
      rcases files with rfl | ⟨_, rfl⟩ | ⟨_, rfl⟩ <;>
        exact quiet trivial (by simp [transferred])
    have jobs : after.jobs = process.jobs := (perform_components performed).2.1
    refine ⟨inv'.wellFormed, inv'.slots, settles (fun other _ => jobs ▸ inv'.jobs other) ?_,
      inv'.log, inv'.swept⟩
    cases point with
    | holding | notifying => cases rest
    | _ => trivial
  | locks inFd outFd calls =>
    simp only [perform] at performed
    split at performed
    · rename_i free
      cases performed
      exact ⟨inv.wellFormed, inv.slots, settles
        (fun other _ => (inv.jobs other).of_free (Option.isNone_iff_eq_none.mp free)) rfl,
        inv.log, inv.swept⟩
    · cases performed
  | unlocks inFd outFd =>
    cases performed
    have held : process.lock = some thread := sound
    exact ⟨inv.wellFormed, inv.slots, settles
      (fun other elsewhere => (inv.jobs other).of_without (by simp [held, elsewhere.symm])) trivial,
      inv.log, inv.swept⟩
  | calls inFd outFd calls executed =>
    cases performed
    obtain ⟨wf, emptier⟩ := pairOp_noFuller inv.wellFormed executed
    exact ⟨inv.wellFormed, inv.slots, settles (fun other _ => inv.jobs other)
      ⟨sound, wf, emptier, fun frame member => holds_of_framesOfCall member⟩, inv.log, inv.swept⟩
  | leaves inFd outFd leaves calls =>
    cases performed
    obtain ⟨lock, wf, emptier, -⟩ := sound
    exact ⟨wf, fun fd owner holds => inv.slots fd owner (holds.of_noFuller emptier), settles
      (fun other elsewhere => (inv.jobs other).of_without (by simp [lock, elsewhere.symm])) lock,
      inv.log, fun fd owner holds => inv.swept fd owner (holds.of_noFuller emptier)⟩
  | sends inFd outFd leaves calls writes follows =>
    obtain ⟨lock, wf, emptier, covered⟩ := sound
    have inv' : Delivers after := by
      rcases writes with rfl | ⟨found, there, usable, rfl⟩
      · exact quiet trivial (by simp [transferred])
      · refine quiet trivial fun owner reached one => ?_
        cases List.mem_singleton.mp one
        exact inv.slots _ _ (covered _ List.mem_cons_self) found there usable
    have plain : effect.Plain := by rcases writes with rfl | ⟨_, _, _, rfl⟩ <;> trivial
    obtain ⟨table, owners, lock', -⟩ := perform_plain plain performed
    have jobs : after.jobs = process.jobs := (perform_components performed).2.1
    refine ⟨inv'.wellFormed, inv'.slots, settles (fun other _ => jobs ▸ inv'.jobs other) ?_,
      inv'.log, inv'.swept⟩
    refine JobPoint.Sound.of_same table owners lock' ⟨lock, wf, emptier, fun frame member => ?_⟩
    rcases follows with rfl | rfl
    · exact covered frame (List.mem_cons_of_mem _ member)
    · exact covered frame member

/-- **The step lemma.** -/
theorem fire_delivers {turn : Process.Turn τ} (inv : Delivers process)
    (keeps : KeepsSubscribers turn process) (fired : fire turn process = some next) :
    Delivers next := by
  cases turn with
  | worker thread outside => exact fire_worker_delivers inv keeps fired
  | host outside => exact fire_host_delivers inv fired
  | job thread outside => exact fire_job_delivers inv keeps fired

omit [DecidableEq τ] in
theorem start_delivers (opened : ℕ) : Delivers (start opened : Process τ) where
  wellFormed := createHashTable_wellFormed
  slots := fun _ _ ⟨key, index, stored, used, _⟩ =>
    absurd (stored.symm.trans (createHashTable_slot key index)) used
  jobs _ := trivial
  log _ _ logged := absurd logged List.not_mem_nil
  swept _ _ _ := List.not_mem_nil

/-- **Notifications reach the subscriber only.** In every run in which no open returns the number of
a slot and only sessions that may subscribe do, each frame goes to the pipe of the session whose
SUBSCRIBE filled the slot, and no slot holds a descriptor that a SIGUSR1 had closed when it was
handled. -/
theorem frames_reach_subscriber (opened : ℕ) (turns : List (Process.Turn τ)) (final : Process τ)
    (keeps : Meets fire KeepsSubscribers turns (start opened))
    (ran : run fire turns (start opened) = some final) :
    SubscribersOnly final := by
  have inv := run_keeps_of_meets (fun _ _ _ inv keeps fired => fire_delivers inv keeps fired)
    (start_delivers opened) keeps ran
  exact ⟨inv.log, fun key index used => inv.swept _ _ ⟨key, index, rfl, used, rfl⟩⟩

end Fire

/-- A session subscribes to a key. -/
def subscribeTurns : List (Process.Turn (Fin 1)) :=
  [.worker 0 .nothing, .worker 0 (.code .subscribe), .worker 0 .nothing, .worker 0 (.key keyA)]

/-- A job begins. -/
def jobTurns : List (Process.Turn (Fin 1)) := [.job 0 (.opens true), .job 0 (.opens true)]

/-- It writes the key, with as many frames. -/
def writeTurns (frames : ℕ) : List (Process.Turn (Fin 1)) :=
  [.job 0 (.command [.write keyA valueAnna]), .job 0 .nothing] ++
    List.replicate frames (.job 0 (.wrote true)) ++ [.job 0 .nothing, .job 0 .nothing]

/-- A session is notified and then closed by SIGUSR1; the next one has its numbers, and no frame. -/
def notifiedSession : List (Process.Turn (Fin 1)) :=
  jobTurns ++ writeTurns 0 ++ connectTurns 0 ++ subscribeTurns ++
    [.worker 0 .nothing, .worker 0 (.wrote true)] ++ writeTurns 1 ++ signalTurns ++
    [.worker 0 (.noCode false), .worker 0 .nothing] ++ connectTurns 1 ++ writeTurns 0

theorem notifiedSession_runs :
    (run fire notifiedSession (start 3 : Process (Fin 1))).isSome := by
  decide

theorem frames_reach_notifiedSession :
    ∃ final, run fire notifiedSession (start 3 : Process (Fin 1)) = some final ∧
      SubscribersOnly final :=
  ⟨_, (Option.some_get notifiedSession_runs).symm,
    frames_reach_subscriber 3 _ _ (by decide) (Option.some_get notifiedSession_runs).symm⟩

/-- A SUBSCRIBE that was read before SIGUSR1 is carried out after its handling. The slot holds a
closed number, the next session is given it, and is sent the frame. -/
theorem frame_reaches_another :
    ∃ final, run fire (jobTurns ++ writeTurns 0 ++ connectTurns 0 ++ subscribeTurns ++
        signalTurns ++ [.worker 0 .nothing] ++ connectTurns 1 ++ writeTurns 1)
        (start 3 : Process (Fin 1)) = some final ∧
      ¬ SubscribersOnly final := by
  refine ⟨_, rfl, ?_⟩
  intro only
  have := only.frames 0 (.notification 1) (by decide)
  cases this

end Kvs.Server
