/-
**Every client that connects is served, and by its own worker.**

`Invariant` follows each client's three paths: they are in the register pipe, in the ring or with
one worker, once, from the write of the frame until the client leaves (`frames`), and a client that
is connected is met by a worker that serves it (`served`). It is kept by every step (`fire_keeps`).

`effort` bounds the steps to come, and every step makes it smaller (`fire_effort`).
`connect_settles` puts the two together: however the clients, the host and the workers take turns,
they come to a rest after finitely many steps, and at rest every client is connected or has left, or
every worker serves one that is connected.
-/

import Kvs.Client.Connect
import Kvs.Concurrency.Registration
import Kvs.Lib.BufferProgress

set_option linter.unusedSectionVars false

namespace Kvs.Client

open Server BoundedBuffer

/-! ### Different clients -/

/-- A path tells the id. -/
theorem strncat_injective (path : CStr) : Function.Injective (strncat path) := by
  intro id id' same
  have bytes : path.bytes ++ id.bytes = path.bytes ++ id'.bytes := congrArg CStr.bytes same
  exact CStr.ext (List.append_cancel_left bytes)

section Distinct

variable {γ : Type} {visitors : γ → Visitor}

/-- No two clients have one id. -/
def Distinct (visitors : γ → Visitor) : Prop :=
  Function.Injective fun client => (visitors client).client.id

theorem Distinct.paths (distinct : Distinct visitors) :
    Function.Injective fun client => (visitors client).paths :=
  fun _ _ same => distinct (strncat_injective reqStem (congrArg PipePaths.req same))

theorem Distinct.copies (distinct : Distinct visitors) :
    Function.Injective fun client => (visitors client).copies := by
  intro client client' same
  have opened : openedPaths (visitors client).copies = openedPaths (visitors client').copies :=
    congrArg openedPaths same
  rw [Visitor.openedPaths_copies, Visitor.openedPaths_copies] at opened
  exact distinct.paths (Option.some.inj opened)

end Distinct

/-! ### Effort -/

theorem SessionPipe.rank_le (pipe : SessionPipe) : pipe.rank ≤ 4 := by
  cases pipe <;> decide

/-- A client's steps to come, and those it gives the server. -/
def ConnectPoint.effort : ConnectPoint → ℕ
  | left => 0
  | connected => 1
  | awaiting => 2
  | opening .notif => 3
  | opening .resp => 4
  | opening .req => 5
  | registering => 24
  | creating => 25

/-- The steps to come of a worker with its copies. -/
def ServePoint.effort : ServePoint → ℕ
  | serving => 0
  | responding => 1
  | opening .notif => 2
  | opening .resp => 3
  | opening .req => 4

theorem ConnectPoint.opened_effort (pipe : SessionPipe) :
    (opened pipe).effort < (opening pipe).effort := by
  cases pipe <;> decide

theorem ServePoint.opened_effort (pipe : SessionPipe) :
    (opened pipe).effort < (opening pipe).effort := by
  cases pipe <;> decide

namespace Lobby

variable {γ : Type} [Fintype γ] [DecidableEq γ] {visitors : γ → Visitor}
  {lobby next : Lobby γ} {client : γ} {worker : Fin maxClients}

/-! ### The invariant -/

/-- What a client has on its way through the server. -/
def token (visitors : γ → Visitor) (client : γ) : ConnectPoint → Multiset PipeData
  | .creating | .registering | .left => 0
  | .opening _ | .awaiting | .connected => {(visitors client).copies}

/-- What is on its way through the server. -/
def carried (visitors : γ → Visitor) (lobby : Lobby γ) : Multiset PipeData :=
  ↑(lobby.fifo.map fun client => (visitors client).copies) +
    contents assingPipeData copyOut lobby.ring

/-- What every step keeps. -/
structure Invariant (visitors : γ → Visitor) (lobby : Lobby γ) : Prop where
  ring : RingInvariant lobby.ring
  frames : lobby.carried visitors = ∑ client, token visitors client (lobby.clients client)
  served : ∀ client, lobby.clients client = .connected →
    ∃ worker, lobby.Meets visitors client worker ∧ lobby.workers worker = .serving

theorem initially_invariant (memory : Fin maxClients → PipeData) :
    Invariant visitors (initially memory) where
  ring := registrationInit_invariant memory
  frames := by
    show (↑([] : List PipeData) : Multiset PipeData) + contents _ _ _ = ∑ _ : γ, 0
    rw [initially, registrationInit, initially_contents, Finset.sum_const_zero]
    rfl
  served _ connected := nomatch connected

/-- The client has written its frame and not left. -/
theorem mem_token {copies : PipeData} {point : ConnectPoint} :
    copies ∈ token visitors client point ↔
      copies = (visitors client).copies ∧ point ≠ .creating ∧ point ≠ .registering ∧
        point ≠ .left := by
  cases point <;> simp [token]

theorem meets_of_working
    (working : lobby.ring.consumers worker = .working (visitors client).copies) :
    lobby.Meets visitors client worker := by
  rw [Meets, working]
  exact Visitor.openedPaths_copies _

theorem working_of_meets (meets : lobby.Meets visitors client worker) :
    ∃ copies, lobby.ring.consumers worker = .working copies := by
  rw [Meets] at meets
  cases point : lobby.ring.consumers worker <;> rw [point] at meets
  case working copies => exact ⟨copies, rfl⟩
  all_goals cases meets

/-- What is on its way belongs to a client. -/
theorem Invariant.owner (inv : Invariant visitors lobby) {copies : PipeData}
    (member : copies ∈ lobby.carried visitors) :
    ∃ client, copies = (visitors client).copies ∧ lobby.clients client ≠ .creating ∧
      lobby.clients client ≠ .registering ∧ lobby.clients client ≠ .left := by
  rw [inv.frames] at member
  obtain ⟨client, _, member⟩ := Multiset.mem_sum.mp member
  exact ⟨client, mem_token.mp member⟩

/-- What a worker has is on its way. -/
theorem mem_carried {copies : PipeData}
    (member : copies ∈ (lobby.ring.consumers worker).carried) : copies ∈ lobby.carried visitors :=
  Multiset.mem_add.mpr <| .inr <| Multiset.mem_add.mpr <| .inr <|
    Multiset.mem_sum.mpr ⟨worker, Finset.mem_univ _, member⟩

/-- A worker with copies has those of a client. -/
theorem Invariant.working (inv : Invariant visitors lobby) {copies : PipeData}
    (working : lobby.ring.consumers worker = .working copies) :
    ∃ client, copies = (visitors client).copies ∧ lobby.clients client ≠ .creating ∧
      lobby.clients client ≠ .registering ∧ lobby.clients client ≠ .left :=
  inv.owner <| mem_carried <| by
    rw [working]
    exact Multiset.mem_singleton_self copies

/-- **A worker meets the client whose copies it has.** -/
theorem Invariant.meets_iff (inv : Invariant visitors lobby) (distinct : Distinct visitors) :
    lobby.Meets visitors client worker ↔
      lobby.ring.consumers worker = .working (visitors client).copies := by
  refine ⟨fun meets => ?_, meets_of_working⟩
  obtain ⟨copies, working⟩ := working_of_meets meets
  obtain ⟨owner, rfl, _⟩ := inv.working working
  rw [Meets, working, opens, Visitor.openedPaths_copies] at meets
  rw [working, distinct.paths (Option.some.inj meets)]

/-- No worker meets two clients. -/
theorem meets_client (distinct : Distinct visitors) {other : γ}
    (meets : lobby.Meets visitors client worker) (also : lobby.Meets visitors other worker) :
    client = other :=
  distinct.paths (Option.some.inj (meets.symm.trans also))

/-- No client is met by two workers. -/
theorem Invariant.meets_worker (inv : Invariant visitors lobby) (distinct : Distinct visitors)
    {other : Fin maxClients} (meets : lobby.Meets visitors client worker)
    (also : lobby.Meets visitors client other) : worker = other := by
  by_contra different
  have twice : 2 ≤ (∑ worker, (lobby.ring.consumers worker).carried).count
      (visitors client).copies := by
    have here := (inv.meets_iff distinct).mp meets
    have there := (inv.meets_iff distinct).mp also
    have one : ∀ worker, lobby.ring.consumers worker = .working (visitors client).copies →
        (lobby.ring.consumers worker).carried.count (visitors client).copies = 1 := by
      intro worker working
      rw [working]
      exact Multiset.count_singleton_self _
    rw [Multiset.count_sum', ← Finset.add_sum_erase _ _ (Finset.mem_univ worker), one _ here,
      ← Finset.add_sum_erase _ _ (Finset.mem_erase.mpr ⟨Ne.symm different, Finset.mem_univ other⟩),
      one _ there]
    omega
  have once : (lobby.carried visitors).count (visitors client).copies ≤ 1 := by
    rw [inv.frames, Multiset.count_sum', Finset.sum_eq_single_of_mem client (Finset.mem_univ _)]
    · cases lobby.clients client <;> simp [token]
    · intro stranger _ strange
      rw [Multiset.count_eq_zero, mem_token]
      exact fun same => strange (distinct.copies same.1).symm
  rw [carried, contents, Multiset.count_add, Multiset.count_add] at once
  omega

/-! ### The steps keep the invariant -/

variable (visitors) in
/-- One client's part of the sum. -/
theorem token_update (clients : γ → ConnectPoint) (client : γ) (point : ConnectPoint) :
    ∑ other, token visitors other (Function.update clients client point other) +
        token visitors client (clients client) =
      ∑ other, token visitors other (clients other) + token visitors client point :=
  Interleaving.sum_update (token visitors) clients client point

/-- The clients that stay where they are stay served. -/
theorem served_update {clients : γ → ConnectPoint} {point : ConnectPoint} {Served : γ → Prop}
    (served : ∀ other ≠ client, clients other = .connected → Served other)
    (connects : point = .connected → Served client) (other : γ)
    (connected : Function.update clients client point other = .connected) : Served other := by
  by_cases same : other = client
  · subst same
    rw [Function.update_self] at connected
    exact connects connected
  · rw [Function.update_of_ne same] at connected
    exact served other same connected

/-- A client that goes on with its frame where it was. -/
theorem moved_keeps (inv : Invariant visitors lobby) {point : ConnectPoint}
    (same : token visitors client point = token visitors client (lobby.clients client))
    (connects : point = .connected →
      ∃ worker, lobby.Meets visitors client worker ∧ lobby.workers worker = .serving) :
    Invariant visitors { lobby with clients := Function.update lobby.clients client point } where
  ring := inv.ring
  frames := by
    have sums := token_update visitors lobby.clients client point
    rw [same] at sums
    exact inv.frames.trans (add_right_cancel sums).symm
  served := served_update (fun other _ => inv.served other) connects

/-- **A step of a client** within `kvs_connect`. -/
theorem clientStep_keeps (inv : Invariant visitors lobby)
    (stepped : lobby.clientStep visitors client = some next) : Invariant visitors next := by
  rw [clientStep] at stepped
  cases point : lobby.clients client with
  | creating =>
    simp only [point] at stepped
    cases stepped
    exact moved_keeps inv (by rw [point]; rfl) nofun
  | registering =>
    simp only [point] at stepped
    cases stepped
    refine ⟨inv.ring, ?_, served_update (fun other _ => inv.served other) nofun⟩
    have sums := token_update visitors lobby.clients client (.opening .req)
    rw [point] at sums
    have grown : ∑ other, token visitors other
        (Function.update lobby.clients client (.opening .req) other) =
          lobby.carried visitors + {(visitors client).copies} := by
      rw [inv.frames]
      exact (add_zero _).symm.trans sums
    rw [grown, carried, carried, List.map_append, ← Multiset.coe_add]
    exact add_right_comm _ _ _
  | opening pipe =>
    simp only [point] at stepped
    split at stepped <;> cases stepped
    refine moved_keeps inv ?_ (by cases pipe <;> exact nofun)
    rw [point]
    cases pipe <;> rfl
  | awaiting =>
    simp only [point] at stepped
    split at stepped
    · rename_i answered
      cases stepped
      exact moved_keeps inv (by rw [point]; rfl) fun _ => answered
    · cases stepped
  | connected | left =>
    simp only [point] at stepped
    cases stepped

/-- **A step of a worker** with its copies. -/
theorem serveStep_keeps (inv : Invariant visitors lobby)
    (stepped : lobby.serveStep visitors worker = some next) : Invariant visitors next := by
  have moves (point : ServePoint) (goes : lobby.workers worker ≠ .serving) : Invariant visitors
      { lobby with workers := Function.update lobby.workers worker point } := by
    refine ⟨inv.ring, inv.frames, fun client connected => ?_⟩
    obtain ⟨server, meets, serving⟩ := inv.served client connected
    have other : server ≠ worker := by
      rintro rfl
      exact goes serving
    exact ⟨server, meets, (Function.update_of_ne other _ _).trans serving⟩
  rw [serveStep] at stepped
  cases point : lobby.workers worker with
  | opening pipe =>
    simp only [point] at stepped
    split at stepped <;> cases stepped
    exact moves _ (by rw [point]; exact nofun)
  | responding =>
    simp only [point] at stepped
    cases stepped
    exact moves _ (by rw [point]; exact nofun)
  | serving =>
    simp only [point] at stepped
    cases stepped

/-- A step of the ring that takes nothing away and leaves the workers at work. -/
theorem ring_keeps (inv : Invariant visitors lobby) {ring : Registration} {fifo : List γ}
    {workers : Fin maxClients → ServePoint} (keeps : RingInvariant ring)
    (frames : carried visitors { lobby with ring, fifo, workers } = lobby.carried visitors)
    (stays : ∀ worker copies, lobby.ring.consumers worker = .working copies →
      ring.consumers worker = .working copies ∧ workers worker = lobby.workers worker) :
    Invariant visitors { lobby with ring, fifo, workers } := by
  refine ⟨keeps, frames.trans inv.frames, fun client connected => ?_⟩
  obtain ⟨worker, meets, serving⟩ := inv.served client connected
  obtain ⟨copies, working⟩ := working_of_meets meets
  obtain ⟨same, place⟩ := stays worker copies working
  refine ⟨worker, ?_, place.trans serving⟩
  show opens (ring.consumers worker) = _
  rw [same, ← working]
  exact meets

/-- The host takes what a client wrote. -/
theorem read_visitor {ring : Registration} {visitor : Visitor}
    (fired : (Turn.read visitor.frame).fire lobby.ring = some ring) :
    BoundedBuffer.fire assingPipeData copyOut (.produce visitor.frame.pipesPath) lobby.ring =
      some ring := by
  rw [Turn.fire] at fired
  split at fired
  · rwa [if_pos visitor.frame_opCode] at fired
  · cases fired

/-- A worker without copies takes its next step at the ring. -/
theorem fire_free (free : ∀ copies, lobby.ring.consumers worker ≠ .working copies) :
    fire visitors (.worker worker) lobby =
      ((Turn.worker worker).fire lobby.ring).map fun ring =>
        { lobby with
          ring, workers := Function.update lobby.workers worker (.opening .req) } := by
  rw [fire]
  split
  · rename_i copies working
    exact absurd working (free copies)
  · rfl

/-- A worker with copies serves its client. -/
theorem fire_working {copies : PipeData}
    (working : lobby.ring.consumers worker = .working copies) :
    fire visitors (.worker worker) lobby = lobby.serveStep visitors worker := by
  rw [fire, working]

/-- **The step lemma.** -/
theorem fire_keeps (distinct : Distinct visitors) {event : Event γ}
    (inv : Invariant visitors lobby) (fired : fire visitors event lobby = some next) :
    Invariant visitors next := by
  cases event with
  | client client => exact clientStep_keeps inv fired
  | read =>
    rw [fire] at fired
    split at fired
    · cases fired
    · rename_i client fifo written
      obtain ⟨ring, taken, rfl⟩ := Option.map_eq_some_iff.mp fired
      refine ring_keeps inv (turn_keeps inv.ring taken) ?_ fun worker copies working => ?_
      · have stored := produce_contents (read_visitor taken)
        rw [carried, carried, stored, written, List.map_cons, ← Multiset.cons_coe,
          ← Multiset.singleton_add, add_comm (contents _ _ _), ← add_assoc]
        congr 1
        exact add_comm _ _
      · have taken := read_visitor taken
        rw [BoundedBuffer.fire] at taken
        split at taken <;> cases taken
        exact ⟨working, rfl⟩
  | host =>
    obtain ⟨ring, stepped, rfl⟩ := Option.map_eq_some_iff.mp fired
    refine ring_keeps inv (turn_keeps inv.ring stepped) ?_ fun worker copies working => ?_
    · rw [carried, carried, producerStep_contents inv.ring.buffer stepped]
    · exact ⟨(congrFun (producerStep_consumers stepped) worker).trans working, rfl⟩
  | worker worker =>
    by_cases free : ∀ copies, lobby.ring.consumers worker ≠ .working copies
    · rw [fire_free free] at fired
      obtain ⟨ring, stepped, rfl⟩ := Option.map_eq_some_iff.mp fired
      refine ring_keeps inv (turn_keeps inv.ring stepped) ?_ fun other copies working => ?_
      · have taken : contents assingPipeData copyOut ring + _ =
            contents assingPipeData copyOut lobby.ring :=
          consumerStep_contents inv.ring.buffer stepped
        have nothing : (lobby.ring.consumers worker).doneWith = 0 := by
          cases point : lobby.ring.consumers worker with
          | working copies => exact absurd point (free copies)
          | _ => rfl
        rw [nothing, add_zero] at taken
        rw [carried, carried, taken]
      · have different : other ≠ worker := by
          rintro rfl
          exact free copies working
        exact ⟨(consumerStep_consumers stepped different).trans working,
          Function.update_of_ne different _ _⟩
    · obtain ⟨copies, working⟩ := not_forall_not.mp free
      rw [fire_working working] at fired
      exact serveStep_keeps inv fired
  | leave client worker =>
    rw [fire] at fired
    split at fired
    · rename_i ready
      obtain ⟨connected, meets, _⟩ := ready
      obtain ⟨ring, stepped, rfl⟩ := Option.map_eq_some_iff.mp fired
      refine ⟨turn_keeps inv.ring stepped, ?_, ?_⟩
      · have taken : contents assingPipeData copyOut ring + _ =
            contents assingPipeData copyOut lobby.ring :=
          consumerStep_contents inv.ring.buffer stepped
        have sums := token_update visitors lobby.clients client .left
        rw [(inv.meets_iff distinct).mp meets] at taken
        rw [connected, ← inv.frames, carried, ← taken, ← add_assoc] at sums
        exact (add_right_cancel (sums.trans (add_zero _))).symm
      · refine served_update (fun other strange connected => ?_) fun same => by cases same
        obtain ⟨server, serves, serving⟩ := inv.served other connected
        have different : server ≠ worker := by
          rintro rfl
          exact strange (meets_client distinct serves meets)
        refine ⟨server, ?_, serving⟩
        show opens (ring.consumers server) = _
        rw [consumerStep_consumers stepped different]
        exact serves
    · cases fired

/-! ### The steps come to an end -/

/-- The steps to come of a worker; those at the ring are the ring's. -/
def workerEffort : Consumer PipeData → ServePoint → ℕ
  | .working _, point => point.effort
  | _, _ => 0

/-- A bound on the steps to come. -/
def effort (lobby : Lobby γ) : ℕ :=
  ∑ client, (lobby.clients client).effort + 18 * lobby.fifo.length +
    BoundedBuffer.effort 4 lobby.ring +
      ∑ worker, workerEffort (lobby.ring.consumers worker) (lobby.workers worker)

theorem initially_effort (memory : Fin maxClients → PipeData) :
    (initially memory : Lobby γ).effort = 25 * Fintype.card γ := by
  have clients : ∑ _ : γ, ConnectPoint.creating.effort = 25 * Fintype.card γ := by
    rw [Finset.sum_const, Finset.card_univ, smul_eq_mul, Nat.mul_comm]
    rfl
  rw [effort, initially]
  dsimp only
  rw [clients]
  rfl

/-- A client whose step makes no more of the server's. -/
theorem clients_effort {point : ConnectPoint} {fifo : List γ}
    (less : point.effort + 18 * fifo.length <
      (lobby.clients client).effort + 18 * lobby.fifo.length) :
    effort { lobby with fifo, clients := Function.update lobby.clients client point } <
      lobby.effort := by
  have sums := Interleaving.sum_update (fun _ => ConnectPoint.effort) lobby.clients client point
  rw [effort, effort]
  dsimp only at sums ⊢
  omega

theorem clientStep_effort (stepped : lobby.clientStep visitors client = some next) :
    next.effort < lobby.effort := by
  rw [clientStep] at stepped
  cases point : lobby.clients client with
  | creating =>
    simp only [point] at stepped
    cases stepped
    exact clients_effort (by rw [point, ConnectPoint.effort, ConnectPoint.effort]; omega)
  | registering =>
    simp only [point] at stepped
    cases stepped
    apply clients_effort
    rw [point, ConnectPoint.effort, ConnectPoint.effort, List.length_append, List.length_singleton]
    omega
  | opening pipe =>
    simp only [point] at stepped
    split at stepped <;> cases stepped
    have less := ConnectPoint.opened_effort pipe
    exact clients_effort (by rw [point]; omega)
  | awaiting =>
    simp only [point] at stepped
    split at stepped <;> cases stepped
    exact clients_effort (by rw [point, ConnectPoint.effort, ConnectPoint.effort]; omega)
  | connected | left =>
    simp only [point] at stepped
    cases stepped

variable (lobby worker) in
/-- One worker's part of the sum. -/
theorem workers_effort {ring : Registration} {workers : Fin maxClients → ServePoint}
    (others : ∀ other ≠ worker, ring.consumers other = lobby.ring.consumers other ∧
      workers other = lobby.workers other) :
    ∑ other, workerEffort (ring.consumers other) (workers other) +
        workerEffort (lobby.ring.consumers worker) (lobby.workers worker) =
      ∑ other, workerEffort (lobby.ring.consumers other) (lobby.workers other) +
        workerEffort (ring.consumers worker) (workers worker) := by
  have off : ∀ other ≠ worker, workerEffort (ring.consumers other) (workers other) =
      workerEffort (lobby.ring.consumers other) (lobby.workers other) := by
    intro other different
    obtain ⟨same, place⟩ := others other different
    rw [same, place]
  exact Interleaving.sum_differ off

theorem serveStep_effort {copies : PipeData}
    (working : lobby.ring.consumers worker = .working copies)
    (stepped : lobby.serveStep visitors worker = some next) : next.effort < lobby.effort := by
  have moves {point : ServePoint} (less : point.effort < (lobby.workers worker).effort) :
      effort { lobby with workers := Function.update lobby.workers worker point } <
        lobby.effort := by
    have sums : ∑ other, workerEffort (lobby.ring.consumers other)
        (Function.update lobby.workers worker point other) + _ = _ :=
      workers_effort lobby worker fun other different =>
        ⟨rfl, Function.update_of_ne different _ _⟩
    rw [working, Function.update_self, workerEffort, workerEffort] at sums
    rw [effort, effort]
    dsimp only
    omega
  rw [serveStep] at stepped
  cases point : lobby.workers worker with
  | opening pipe =>
    simp only [point] at stepped
    split at stepped <;> cases stepped
    exact moves (by rw [point]; exact ServePoint.opened_effort pipe)
  | responding =>
    simp only [point] at stepped
    cases stepped
    exact moves (by rw [point]; decide)
  | serving =>
    simp only [point] at stepped
    cases stepped

/-- **Every step** makes the effort smaller. -/
theorem fire_effort {event : Event γ} (fired : fire visitors event lobby = some next) :
    next.effort < lobby.effort := by
  cases event with
  | client client => exact clientStep_effort fired
  | read =>
    rw [fire] at fired
    split at fired
    · cases fired
    · rename_i client fifo written
      obtain ⟨ring, taken, rfl⟩ := Option.map_eq_some_iff.mp fired
      have taken := read_visitor taken
      have brings : BoundedBuffer.effort 4 ring = BoundedBuffer.effort 4 lobby.ring + (4 + 13) :=
        produce_effort taken
      have same : ring.consumers = lobby.ring.consumers := by
        rw [BoundedBuffer.fire] at taken
        split at taken <;> cases taken
        rfl
      rw [effort, effort, written, List.length_cons]
      dsimp only
      rw [same]
      omega
  | host =>
    obtain ⟨ring, stepped, rfl⟩ := Option.map_eq_some_iff.mp fired
    have less : BoundedBuffer.effort 4 ring < BoundedBuffer.effort 4 lobby.ring :=
      producerStep_effort stepped
    rw [effort, effort]
    dsimp only
    rw [producerStep_consumers stepped]
    omega
  | worker worker =>
    by_cases free : ∀ copies, lobby.ring.consumers worker ≠ .working copies
    · rw [fire_free free] at fired
      obtain ⟨ring, stepped, rfl⟩ := Option.map_eq_some_iff.mp fired
      have less : BoundedBuffer.effort 4 ring + (ring.consumers worker).starts 4 <
          BoundedBuffer.effort 4 lobby.ring := consumerStep_effort free stepped
      have sums : ∑ other, workerEffort (ring.consumers other)
          (Function.update lobby.workers worker (.opening .req) other) + _ = _ :=
        workers_effort lobby worker fun other different =>
          ⟨consumerStep_consumers stepped different, Function.update_of_ne different _ _⟩
      have before : workerEffort (lobby.ring.consumers worker) (lobby.workers worker) = 0 := by
        cases point : lobby.ring.consumers worker with
        | working copies => exact absurd point (free copies)
        | _ => rfl
      have after : workerEffort (ring.consumers worker) (.opening .req) =
          (ring.consumers worker).starts 4 := by
        cases ring.consumers worker <;> rfl
      rw [before, Function.update_self, after, add_zero] at sums
      rw [effort, effort]
      dsimp only
      omega
    · obtain ⟨copies, working⟩ := not_forall_not.mp free
      rw [fire_working working] at fired
      exact serveStep_effort working fired
  | leave client worker =>
    rw [fire] at fired
    split at fired
    · rename_i ready
      obtain ⟨connected, meets, serving⟩ := ready
      obtain ⟨ring, stepped, rfl⟩ := Option.map_eq_some_iff.mp fired
      obtain ⟨copies, working⟩ := working_of_meets meets
      have same : BoundedBuffer.effort 4 ring = BoundedBuffer.effort 4 lobby.ring :=
        doneWith_effort working stepped
      have away : ring.consumers worker = .waiting := by
        simp only [Turn.fire, BoundedBuffer.fire, consumerStep, working] at stepped
        cases stepped
        exact Function.update_self _ _ _
      have clients : ∑ other, (Function.update lobby.clients client .left other).effort + 1 =
          ∑ other, (lobby.clients other).effort := by
        have sums := Interleaving.sum_update (fun _ => ConnectPoint.effort) lobby.clients client
          .left
        rw [connected] at sums
        exact sums
      have workers : ∑ other, workerEffort (ring.consumers other) (lobby.workers other) =
          ∑ other, workerEffort (lobby.ring.consumers other) (lobby.workers other) := by
        have sums : ∑ other, workerEffort (ring.consumers other) (lobby.workers other) + _ = _ :=
          workers_effort lobby worker fun other different =>
            ⟨consumerStep_consumers stepped different, rfl⟩
        rw [working, serving, away] at sums
        exact sums
      rw [effort, effort]
      dsimp only
      omega
    · cases fired

/-! ### At rest -/

section Rest

variable (visitors) in
/-- No step can be taken, but for clients that leave. -/
def AtRest (lobby : Lobby γ) : Prop :=
  ∀ event, (∀ client worker, event ≠ .leave client worker) → fire visitors event lobby = none

theorem AtRest.ring (rest : lobby.AtRest visitors) :
    BoundedBuffer.AtRest assingPipeData copyOut lobby.ring where
  producer := Option.map_eq_none_iff.mp (rest .host nofun)
  consumers worker free := by
    have stuck := rest (.worker worker) nofun
    rw [fire_free free] at stuck
    exact Option.map_eq_none_iff.mp stuck

/-- A worker that waits for nobody serves. -/
theorem AtRest.worker_serves (rest : lobby.AtRest visitors)
    (meets : lobby.Meets visitors client worker)
    (arrived : ∀ pipe, lobby.workers worker = .opening pipe →
      pipe.rank ≤ (lobby.clients client).reached) : lobby.workers worker = .serving := by
  obtain ⟨copies, working⟩ := working_of_meets meets
  have stuck := rest (.worker worker) nofun
  rw [fire_working working, serveStep] at stuck
  cases point : lobby.workers worker with
  | opening pipe =>
    simp only [point] at stuck
    rw [if_pos ⟨client, meets, arrived pipe point⟩] at stuck
    cases stuck
  | responding =>
    simp only [point] at stuck
    cases stuck
  | serving => rfl

/-- **A worker and the client it meets** have nothing left to wait for. -/
theorem AtRest.served (rest : lobby.AtRest visitors) (inv : Invariant visitors lobby)
    (distinct : Distinct visitors) (meets : lobby.Meets visitors client worker) :
    lobby.clients client = .connected ∧ lobby.workers worker = .serving := by
  have working := (inv.meets_iff distinct).mp meets
  obtain ⟨owner, same, notCreating, notRegistering, notLeft⟩ := inv.working working
  obtain rfl := distinct.copies same
  have stuck := rest (.client client) nofun
  rw [fire, clientStep] at stuck
  cases point : lobby.clients client with
  | creating => exact absurd point notCreating
  | registering => exact absurd point notRegistering
  | left => exact absurd point notLeft
  | opening pipe =>
    simp only [point] at stuck
    -- the client waits at a pipe the worker has not come to, so the worker has no reason to wait
    have short : (lobby.workers worker).reached < pipe.rank := by
      by_contra reached
      rw [if_pos ⟨worker, meets, not_lt.mp reached⟩] at stuck
      cases stuck
    have serving := rest.worker_serves meets fun other place => by
      rw [place] at short
      rw [point]
      exact short.le
    rw [serving] at short
    exact absurd (SessionPipe.rank_le pipe) (not_le.mpr short)
  | awaiting =>
    simp only [point] at stuck
    have serving := rest.worker_serves meets fun other _ => by
      rw [point]
      exact SessionPipe.rank_le other
    rw [if_pos ⟨worker, meets, serving⟩] at stuck
    cases stuck
  | connected =>
    refine ⟨rfl, rest.worker_serves meets fun other _ => ?_⟩
    rw [point]
    exact SessionPipe.rank_le other

/-- **At rest** every client is connected or has left, or every worker serves one that is. -/
theorem AtRest.settled (rest : lobby.AtRest visitors) (inv : Invariant visitors lobby)
    (distinct : Distinct visitors) :
    (∀ client, lobby.clients client = .connected ∨ lobby.clients client = .left) ∨
      ∀ worker, ∃ client, lobby.Meets visitors client worker ∧
        lobby.clients client = .connected ∧ lobby.workers worker = .serving := by
  rcases rest.ring.handed inv.ring.buffer (by decide) with ⟨idle, empty⟩ | busy
  · left
    intro client
    have read : lobby.fifo = [] := by
      cases written : lobby.fifo with
      | nil => rfl
      | cons first fifo =>
        have stuck := rest .read (by simp)
        rw [fire, written] at stuck
        have stuck := Option.map_eq_none_iff.mp stuck
        simp only [Turn.fire, idle, Visitor.frame_opCode, if_true, BoundedBuffer.fire] at stuck
        cases stuck
    have stuck := rest (.client client) (by simp)
    rw [fire, clientStep] at stuck
    -- its copies are with a worker, when it has written its frame
    have met (member : (visitors client).copies ∈
        token visitors client (lobby.clients client)) : lobby.clients client = .connected := by
      have sum : (visitors client).copies ∈ lobby.carried visitors := by
        rw [inv.frames]
        exact Multiset.mem_sum.mpr ⟨client, Finset.mem_univ _, member⟩
      rw [carried, contents, read, idle, empty] at sum
      have sum : (visitors client).copies ∈
          ∑ worker, (lobby.ring.consumers worker).carried := by
        simpa [Producer.carried] using sum
      obtain ⟨worker, _, held⟩ := Multiset.mem_sum.mp sum
      rcases rest.ring.consumer (rest.ring.free inv.ring.buffer) worker with
        ⟨waiting, _⟩ | ⟨copies, working⟩
      · rw [waiting] at held
        exact absurd held (Multiset.notMem_zero _)
      · rw [working] at held
        rw [← Multiset.mem_singleton.mp held] at working
        exact (rest.served inv distinct (meets_of_working working)).1
    cases point : lobby.clients client with
    | creating | registering =>
      simp only [point] at stuck
      cases stuck
    | left => exact .inr rfl
    | opening | awaiting | connected =>
      rw [point] at met
      exact .inl (met (Multiset.mem_singleton_self _))
  · right
    intro worker
    obtain ⟨copies, working⟩ := busy worker
    obtain ⟨client, rfl, _⟩ := inv.working working
    have meets := meets_of_working working
    exact ⟨client, meets, rest.served inv distinct meets⟩

/-- A client that is connected can leave. -/
theorem Invariant.leaves (inv : Invariant visitors lobby)
    (connected : lobby.clients client = .connected) :
    ∃ worker next, fire visitors (.leave client worker) lobby = some next := by
  obtain ⟨worker, meets, serving⟩ := inv.served client connected
  obtain ⟨copies, working⟩ := working_of_meets meets
  refine ⟨worker, ?_⟩
  rw [fire, if_pos ⟨connected, meets, serving⟩]
  simp only [Turn.fire, BoundedBuffer.fire, consumerStep, working, Option.map_some]
  exact ⟨_, rfl⟩

end Rest

/-! ### Runs -/

section Runs

variable {memory : Fin maxClients → PipeData} {events : List (Event γ)}

theorem run_invariant (distinct : Distinct visitors)
    (ran : Interleaving.run (fire visitors) events (initially memory) = some lobby) :
    Invariant visitors lobby :=
  Interleaving.run_keeps (fun _ _ _ => fire_keeps distinct) (initially_invariant memory) ran

end Runs

/-- **A client's own worker.** However the clients, the host and the workers have taken turns, a
connected client is served by one worker and met by no other, and a worker that has paths has those
of one client. -/
theorem connect_own (distinct : Distinct visitors) (memory : Fin maxClients → PipeData)
    (events : List (Event γ)) (lobby : Lobby γ)
    (ran : Interleaving.run (fire visitors) events (initially memory) = some lobby) :
    (∀ client, lobby.clients client = .connected → ∃ worker, lobby.workers worker = .serving ∧
      ∀ other, lobby.Meets visitors client other ↔ other = worker) ∧
    ∀ worker copies, lobby.ring.consumers worker = .working copies →
      ∃ client, ∀ other, lobby.Meets visitors other worker ↔ other = client := by
  have inv := run_invariant distinct ran
  constructor
  · intro client connected
    obtain ⟨worker, meets, serving⟩ := inv.served client connected
    refine ⟨worker, serving, fun other => ⟨fun also => inv.meets_worker distinct also meets, ?_⟩⟩
    rintro rfl
    exact meets
  · intro worker copies working
    obtain ⟨client, rfl, _⟩ := inv.working working
    have meets := meets_of_working working
    refine ⟨client, fun other => ⟨fun also => meets_client distinct also meets, ?_⟩⟩
    rintro rfl
    exact meets

/-- **Connecting comes to an end, and to a good one.** In whatever order the clients, the host and
the workers take their steps, they take finitely many. When only clients that leave can take one,
every client has come to be connected or every worker serves one that is; when nobody can, every
client has been connected and has left. -/
theorem connect_settles (distinct : Distinct visitors) (memory : Fin maxClients → PipeData)
    (events : List (Event γ)) (lobby : Lobby γ)
    (ran : Interleaving.run (fire visitors) events (initially memory) = some lobby) :
    events.length ≤ 25 * Fintype.card γ ∧
    (lobby.AtRest visitors →
      (∀ client, lobby.clients client = .connected ∨ lobby.clients client = .left) ∨
        ∀ worker, ∃ client, lobby.Meets visitors client worker ∧
          lobby.clients client = .connected ∧ lobby.workers worker = .serving) ∧
    ((∀ event, fire visitors event lobby = none) → ∀ client, lobby.clients client = .left) := by
  have inv := run_invariant distinct ran
  have settled (rest : lobby.AtRest visitors) := rest.settled inv distinct
  refine ⟨?_, settled, fun stuck => ?_⟩
  · have bound := Interleaving.run_length (fun _ _ _ => fire_effort) ran
    rw [initially_effort] at bound
    omega
  · have unconnected (client : γ) : lobby.clients client ≠ .connected := by
      intro connected
      obtain ⟨worker, next, fired⟩ := inv.leaves connected
      cases (stuck _).symm.trans fired
    rcases settled fun event _ => stuck event with done | busy
    · exact fun client => (done client).resolve_left (unconnected client)
    · obtain ⟨client, _, connected, _⟩ := busy 0
      exact absurd connected (unconnected client)

/-! ### Two clients -/

/-- The clients `a` and `b`. -/
def twoVisitors (client : Fin 2) : Visitor where
  client := ⟨⟨[if client = 0 then 'a'.toUInt8 else 'b'.toUInt8], by fin_cases client <;> decide⟩,
    by fin_cases client <;> decide⟩
  short := by fin_cases client <;> decide

/-- Both write their frames, the second worker takes the first, and the first client connects. -/
def twoEvents : List (Event (Fin 2)) :=
  [.client 0, .client 0, .client 1, .client 1, .read, .host, .host, .host, .host, .host, .host,
    .worker 1, .worker 1, .worker 1, .worker 1, .worker 1, .worker 1, .client 0, .worker 1,
    .worker 1, .client 0, .client 0, .worker 1, .worker 1, .client 0]

theorem twoVisitors_distinct : Distinct twoVisitors := by
  intro client client' same
  fin_cases client <;> fin_cases client' <;> first | rfl | exact absurd same (by decide)

theorem connect_own_two :
    ∃ lobby, Interleaving.run (fire twoVisitors) twoEvents
        (initially fun _ => assingPipeData []) = some lobby ∧
      (∀ client, lobby.clients client = .connected → ∃ worker, lobby.workers worker = .serving ∧
        ∀ other, lobby.Meets twoVisitors client other ↔ other = worker) ∧
      ∀ worker copies, lobby.ring.consumers worker = .working copies →
        ∃ client, ∀ other, lobby.Meets twoVisitors other worker ↔ other = client := by
  refine (Option.isSome_iff_exists.mp ?_).imp fun lobby ran =>
    ⟨ran, connect_own twoVisitors_distinct _ _ lobby ran⟩
  decide +kernel

/-- The second client connects to the other worker, and both leave. -/
def restOfEvents : List (Event (Fin 2)) :=
  .read :: List.replicate 6 .host ++ List.replicate 6 (.worker 0) ++
    [.client 1, .worker 0, .client 1, .worker 0, .client 1, .worker 0, .worker 0, .client 1,
      .leave 0 1, .leave 1 0]

/-- The steps nobody can take any more. -/
def stepsOf (client : Fin 2) (worker : Fin maxClients) : List (Event (Fin 2)) :=
  [.client client, .read, .host, .worker worker, .leave client worker]

/-- Both clients come and go, and then nobody can take a step. -/
theorem connect_settles_two :
    ∃ lobby, Interleaving.run (fire twoVisitors) (twoEvents ++ restOfEvents)
        (initially fun _ => assingPipeData []) = some lobby ∧
      (twoEvents ++ restOfEvents).length ≤ 25 * Fintype.card (Fin 2) ∧
      lobby.AtRest twoVisitors ∧ (∀ event, fire twoVisitors event lobby = none) ∧
      ∀ client, lobby.clients client = .left := by
  have ended : (Interleaving.run (fire twoVisitors) (twoEvents ++ restOfEvents)
      (initially fun _ => assingPipeData [])).map (fun lobby => decide (∀ client worker,
        ∀ event ∈ stepsOf client worker, fire twoVisitors event lobby = none)) = some true := by
    decide +kernel
  obtain ⟨lobby, ran, still⟩ := Option.map_eq_some_iff.mp ended
  have still := of_decide_eq_true still
  have stuck (event : Event (Fin 2)) : fire twoVisitors event lobby = none := by
    cases event with
    | client client => exact still client 0 _ (by simp [stepsOf])
    | read => exact still 0 0 _ (by simp [stepsOf])
    | host => exact still 0 0 _ (by simp [stepsOf])
    | worker worker => exact still 0 worker _ (by simp [stepsOf])
    | leave client worker => exact still client worker _ (by simp [stepsOf])
  obtain ⟨bound, _, settled⟩ := connect_settles twoVisitors_distinct _ _ lobby ran
  exact ⟨lobby, ran, bound, fun event _ => stuck event, stuck, settled stuck⟩

end Lobby

end Kvs.Client
