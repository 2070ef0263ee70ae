/-
**Calls that run under one lock.**

A `Machine` says what a call does at each of its points: take the lock, access the shared state,
fork a child on a copy of it, release the lock, or return. Any number of threads make calls, one
after another each, and `fire` lets any of them take its next step; the children go on by
themselves. The lock is the only thing that keeps the threads apart: an access does not ask who
holds it.

A machine carries its lock discipline: a call takes the lock first, accesses the state and forks
only while it holds it, releases it once, and then returns. `interleave_serial` says what that gives
for every interleaving: the calls behave as if each had run alone, from start to end, in the order
in which they took the lock. A child goes on from the copy it was made with.

A `Finish` is how a machine is related to functions: what is left to do at each point. `BigStep`
states that every instruction does its part of it, and `BigStep.whole` reads the whole call off.
-/

import Mathlib

set_option linter.unusedSectionVars false

namespace LockedCalls

variable {κ σ ε π ρ χ τ : Type}

/-! ### Machines -/

/-- What a call does next. -/
inductive Instr (σ ε π ρ χ : Type) where
  | lock (next : π)
  | access (action : σ → Except ε (σ × π))
  /-- Whether it succeeds is not for the call to decide. -/
  | fork (copy : σ → χ) (next : Bool → π)
  | unlock (next : π)
  | ret (result : ρ)

/-- Where a point stands with respect to the lock. -/
inductive Phase where
  | before | inside | after
deriving DecidableEq

/-- The lock discipline at one point. -/
def Instr.Obeys (phase : π → Phase) : Phase → Instr σ ε π ρ χ → Prop
  | .before, .lock next => phase next = .inside
  | .inside, .access action =>
    ∀ shared shared' next, action shared = .ok (shared', next) → phase next = .inside
  | .inside, .fork _ next => ∀ forks, phase (next forks) = .inside
  | .inside, .unlock next => phase next = .after
  | .after, .ret _ => True
  | _, _ => False

/-- The points of the calls `κ` on a shared state `σ`, with results `ρ` and children `χ`. -/
structure Machine (κ σ ε π ρ χ : Type) where
  start : κ → π
  instr : π → Instr σ ε π ρ χ
  childStep : χ → Option χ
  phase : π → Phase
  start_before : ∀ call, phase (start call) = .before
  obeys : ∀ point, (instr point).Obeys phase (phase point)

/-! ### Interleavings -/

/-- A thread within a call; `ticket` counts the sections before the call's own, once it has one. -/
structure Running (κ π : Type) where
  call : κ
  point : π
  ticket : ℕ

/-- The threads, the lock, and what has happened. -/
structure System (κ σ π ρ χ τ : Type) where
  shared : σ
  holder : Option τ
  /-- None for a thread between two calls. -/
  threads : τ → Option (Running κ π)
  /-- The calls in the order they took the lock. -/
  acquired : List κ
  /-- The results returned, by ticket. -/
  returned : List (ℕ × ρ)
  /-- The children, by the ticket of the call that made them. -/
  children : List (ℕ × χ)

/-- No thread within a call. -/
def initially (shared : σ) : System κ σ π ρ χ τ := ⟨shared, none, fun _ => none, [], [], []⟩

/-- Whose turn it is. -/
inductive Event (κ τ : Type) where
  | call (thread : τ) (call : κ)
  /-- The thread's next step; if it is a fork, whether it succeeds. -/
  | advance (thread : τ) (forks : Bool)
  | child (index : ℕ)

section Fire

variable (m : Machine κ σ ε π ρ χ) [DecidableEq τ]

/-- A thread's next step; none when it waits for the lock or its access faults. -/
def advance (thread : τ) (forks : Bool) (running : Running κ π) (system : System κ σ π ρ χ τ) :
    Option (System κ σ π ρ χ τ) :=
  let goTo (running : Option (Running κ π)) := Function.update system.threads thread running
  match m.instr running.point with
  | .lock next =>
    if system.holder = none then
      some { system with
        holder := some thread
        acquired := system.acquired ++ [running.call]
        threads := goTo (some ⟨running.call, next, system.acquired.length⟩) }
    else none
  | .access action =>
    match action system.shared with
    | .error _ => none
    | .ok (shared, next) =>
      some { system with shared, threads := goTo (some { running with point := next }) }
  | .fork copy next =>
    some { system with
      children := if forks then system.children ++ [(running.ticket, copy system.shared)]
        else system.children
      threads := goTo (some { running with point := next forks }) }
  | .unlock next =>
    some { system with
      holder := none, threads := goTo (some { running with point := next }) }
  | .ret result =>
    some { system with
      returned := system.returned ++ [(running.ticket, result)], threads := goTo none }

/-- One step of the system; none when it cannot be made. -/
def fire : Event κ τ → System κ σ π ρ χ τ → Option (System κ σ π ρ χ τ)
  | .call thread call, system =>
    match system.threads thread with
    | some _ => none
    | none =>
      some { system with
        threads := Function.update system.threads thread (some ⟨call, m.start call, 0⟩) }
  | .advance thread forks, system =>
    (system.threads thread).bind fun running => advance m thread forks running system
  | .child index, system =>
    (system.children[index]?).bind fun entry => (m.childStep entry.2).map fun child =>
      { system with children := system.children.set index (entry.1, child) }

/-- Steps one after another. -/
def interleave : List (Event κ τ) → System κ σ π ρ χ τ → Option (System κ σ π ρ χ τ)
  | [], system => some system
  | event :: events, system => (fire m event system).bind (interleave events)

end Fire

/-! ### A call alone -/

/-- A call, the state it runs on and the children it has made. -/
structure Config (σ π χ : Type) where
  point : π
  shared : σ
  spawned : List χ

/-- One step of a call that runs alone. -/
inductive Alone (m : Machine κ σ ε π ρ χ) : Config σ π χ → Config σ π χ → Prop where
  | lock {config : Config σ π χ} {next : π} (instr : m.instr config.point = .lock next) :
      Alone m config { config with point := next }
  | access {config : Config σ π χ} {action : σ → Except ε (σ × π)} {shared : σ} {next : π}
      (instr : m.instr config.point = .access action)
      (done : action config.shared = .ok (shared, next)) :
      Alone m config { config with point := next, shared }
  | fork {config : Config σ π χ} {copy : σ → χ} {next : Bool → π}
      (instr : m.instr config.point = .fork copy next) (forks : Bool) :
      Alone m config { config with
        point := next forks
        spawned := if forks then config.spawned ++ [copy config.shared] else config.spawned }
  | unlock {config : Config σ π χ} {next : π} (instr : m.instr config.point = .unlock next) :
      Alone m config { config with point := next }

/-- Any number of steps of a call that runs alone. -/
abbrev AloneRun (m : Machine κ σ ε π ρ χ) : Config σ π χ → Config σ π χ → Prop :=
  Relation.ReflTransGen (Alone m)

/-- Any number of steps of a child. -/
abbrev ChildRun (m : Machine κ σ ε π ρ χ) : χ → χ → Prop :=
  Relation.ReflTransGen fun child next => m.childStep child = some next

/-- A call with its result. -/
structure Outcome (κ ρ : Type) where
  call : κ
  result : ρ

/-- Calls that run alone, one after another, from start to end. -/
inductive Serial (m : Machine κ σ ε π ρ χ) (initial : σ) : List (Outcome κ ρ) → σ → Prop where
  | nil : Serial m initial [] initial
  | snoc {outcomes : List (Outcome κ ρ)} {middle final : σ} {call : κ} {point : π}
      {spawned : List χ} {result : ρ} (earlier : Serial m initial outcomes middle)
      (ran : AloneRun m ⟨m.start call, middle, []⟩ ⟨point, final, spawned⟩)
      (ends : m.instr point = .ret result) :
      Serial m initial (outcomes ++ [⟨call, result⟩]) final

/-! ### The invariant -/

section Invariant

variable (m : Machine κ σ ε π ρ χ) (initial : σ)

/-- What holds of a thread within a call, given the lock's holder and the sections that are over. -/
def Fits (holder : Option τ) (outcomes : List (Outcome κ ρ)) (thread : τ)
    (running : Running κ π) : Prop :=
  match m.phase running.point with
  | .before => running.point = m.start running.call
  | .inside => holder = some thread
  | .after => ∃ outcome, outcomes[running.ticket]? = some outcome ∧
      m.instr running.point = .ret outcome.result

/-- A child has gone on from a copy its call made, alone, on the state of its turn. -/
def Descends (outcomes : List (Outcome κ ρ)) (acquired : List κ) (entry : ℕ × χ) : Prop :=
  ∃ state call config first, entry.1 ≤ outcomes.length ∧
    Serial m initial (outcomes.take entry.1) state ∧ acquired[entry.1]? = some call ∧
    AloneRun m ⟨m.start call, state, []⟩ config ∧ first ∈ config.spawned ∧
    ChildRun m first entry.2

/-- The sections that are over, run one after another, give `state`; the section of the lock's
holder has run alone from there. -/
structure Invariant (system : System κ σ π ρ χ τ) (outcomes : List (Outcome κ ρ)) (state : σ) :
    Prop where
  serial : Serial m initial outcomes state
  free : system.holder = none →
    system.shared = state ∧ system.acquired = outcomes.map Outcome.call
  held : ∀ thread, system.holder = some thread → ∃ running spawned,
    system.threads thread = some running ∧ m.phase running.point = .inside ∧
    running.ticket = outcomes.length ∧
    system.acquired = outcomes.map Outcome.call ++ [running.call] ∧
    AloneRun m ⟨m.start running.call, state, []⟩ ⟨running.point, system.shared, spawned⟩
  threads : ∀ thread running, system.threads thread = some running →
    Fits m system.holder outcomes thread running
  returned : ∀ entry ∈ system.returned, ∃ outcome, outcomes[entry.1]? = some outcome ∧
    outcome.result = entry.2
  children : ∀ entry ∈ system.children, Descends m initial outcomes system.acquired entry

end Invariant

section Steps

variable {m : Machine κ σ ε π ρ χ} {initial state : σ} {system : System κ σ π ρ χ τ}
  {outcomes : List (Outcome κ ρ)} {thread : τ} {running : Running κ π}

/-! ### The phases -/

/-- The discipline read off an instruction: the phase it stands in, and the one it goes on to. -/
def Instr.Phases (phase : π → Phase) (here : Phase) : Instr σ ε π ρ χ → Prop
  | .lock next => here = .before ∧ phase next = .inside
  | .access action => here = .inside ∧
      ∀ shared shared' next, action shared = .ok (shared', next) → phase next = .inside
  | .fork _ next => here = .inside ∧ ∀ forks, phase (next forks) = .inside
  | .unlock next => here = .inside ∧ phase next = .after
  | .ret _ => here = .after

theorem Instr.Obeys.phases {phase : π → Phase} {here : Phase} {instr : Instr σ ε π ρ χ}
    (obeys : instr.Obeys phase here) : instr.Phases phase here := by
  cases here with
  | before => cases instr <;> first | exact ⟨rfl, obeys⟩ | exact obeys.elim
  | inside => cases instr <;> first | exact ⟨rfl, obeys⟩ | exact obeys.elim
  | after => cases instr <;> first | rfl | exact obeys.elim

theorem phase_of_lock {point next : π} (instr : m.instr point = .lock next) :
    m.phase point = .before ∧ m.phase next = .inside := by
  have phases := (m.obeys point).phases
  rwa [instr] at phases

theorem phase_of_access {point : π} {action : σ → Except ε (σ × π)}
    (instr : m.instr point = .access action) :
    m.phase point = .inside ∧ ∀ shared shared' next, action shared = .ok (shared', next) →
      m.phase next = .inside := by
  have phases := (m.obeys point).phases
  rwa [instr] at phases

theorem phase_of_fork {point : π} {copy : σ → χ} {next : Bool → π}
    (instr : m.instr point = .fork copy next) :
    m.phase point = .inside ∧ ∀ forks, m.phase (next forks) = .inside := by
  have phases := (m.obeys point).phases
  rwa [instr] at phases

theorem phase_of_unlock {point next : π} (instr : m.instr point = .unlock next) :
    m.phase point = .inside ∧ m.phase next = .after := by
  have phases := (m.obeys point).phases
  rwa [instr] at phases

theorem phase_of_ret {point : π} {result : ρ} (instr : m.instr point = .ret result) :
    m.phase point = .after := by
  have phases := (m.obeys point).phases
  rwa [instr] at phases

theorem ret_of_after {point : π} (after : m.phase point = .after) :
    ∃ result, m.instr point = .ret result := by
  have obeys := m.obeys point
  rw [after] at obeys
  cases instr : m.instr point with
  | ret result => exact ⟨result, rfl⟩
  | lock => rw [instr] at obeys; exact obeys.elim
  | access => rw [instr] at obeys; exact obeys.elim
  | fork => rw [instr] at obeys; exact obeys.elim
  | unlock => rw [instr] at obeys; exact obeys.elim

/-! ### More sections -/

theorem getElem?_later {α : Type} {earlier : List α} {place : ℕ} {value : α}
    (there : earlier[place]? = some value) (later : List α) :
    (earlier ++ later)[place]? = some value := by
  rw [List.getElem?_append_left (List.getElem?_eq_some_iff.mp there).1, there]

theorem fits_of_inside (inside : m.phase running.point = .inside) {holder : Option τ} :
    Fits m holder outcomes thread running ↔ holder = some thread := by
  rw [Fits, inside]

/-- A thread outside its section is not concerned by who holds the lock, nor by a section more. -/
theorem Fits.later {holder : Option τ} (fits : Fits m holder outcomes thread running)
    (outside : m.phase running.point ≠ .inside) (holder' : Option τ) (later : List (Outcome κ ρ)) :
    Fits m holder' (outcomes ++ later) thread running := by
  unfold Fits at fits ⊢
  cases phase : m.phase running.point with
  | before => rwa [phase] at fits
  | inside => exact absurd phase outside
  | after =>
    rw [phase] at fits
    obtain ⟨outcome, there, ends⟩ := fits
    exact ⟨outcome, getElem?_later there _, ends⟩

theorem Descends.later {acquired : List κ} {entry : ℕ × χ}
    (descends : Descends m initial outcomes acquired entry) (later : List (Outcome κ ρ))
    (more : List κ) : Descends m initial (outcomes ++ later) (acquired ++ more) entry := by
  obtain ⟨state, call, config, first, within, serial, there, ran, made, gone⟩ := descends
  refine ⟨state, call, config, first, ?_, ?_, getElem?_later there _, ran, made, gone⟩
  · rw [List.length_append]
    exact Nat.le_add_right_of_le within
  · rwa [List.take_append_of_le_length within]

/-! ### The steps keep the invariant -/

variable [DecidableEq τ]

/-- What holds of every thread once one of them has moved on. -/
theorem forall_update {threads : τ → Option (Running κ π)} {value : Option (Running κ π)}
    {fits : τ → Running κ π → Prop} (own : ∀ running, value = some running → fits thread running)
    (others : ∀ other running, other ≠ thread → threads other = some running → fits other running) :
    ∀ other running, Function.update threads thread value other = some running →
      fits other running := by
  intro other running there
  by_cases same : other = thread
  · subst same
    rw [Function.update_self] at there
    exact own running there
  · rw [Function.update_of_ne same] at there
    exact others other running same there

/-- Only the holder of the lock is in its section. -/
theorem Invariant.outside (kept : Invariant m initial system outcomes state) {other : τ}
    {running : Running κ π} (there : system.threads other = some running)
    (holder : system.holder ≠ some other) : m.phase running.point ≠ .inside := by
  intro inside
  exact holder ((fits_of_inside inside).mp (kept.threads other running there))

theorem call_keeps (kept : Invariant m initial system outcomes state)
    (idle : system.threads thread = none) (call : κ) :
    Invariant m initial
      { system with
        threads := Function.update system.threads thread (some ⟨call, m.start call, 0⟩) }
      outcomes state where
  serial := kept.serial
  free := kept.free
  held := by
    intro other holder
    obtain ⟨running, spawned, there, rest⟩ := kept.held other holder
    have different : other ≠ thread := fun same => by
      subst same
      rw [idle] at there
      cases there
    exact ⟨running, spawned, (Function.update_of_ne different ..).trans there, rest⟩
  threads := by
    refine forall_update (fun running same => ?_) fun other running _ => kept.threads other running
    cases same
    rw [Fits, m.start_before]
  returned := kept.returned
  children := kept.children

theorem lock_keeps (kept : Invariant m initial system outcomes state)
    (there : system.threads thread = some running) {next : π}
    (instr : m.instr running.point = .lock next) (free : system.holder = none) :
    Invariant m initial
      { system with
        holder := some thread
        acquired := system.acquired ++ [running.call]
        threads := Function.update system.threads thread
          (some ⟨running.call, next, system.acquired.length⟩) }
      outcomes state := by
  obtain ⟨before, inside⟩ := phase_of_lock instr
  obtain ⟨same, acquired⟩ := kept.free free
  have start : running.point = m.start running.call := by
    have fits := kept.threads thread running there
    rwa [Fits, before] at fits
  refine ⟨kept.serial, nofun, ?_, ?_, kept.returned, ?_⟩
  · rintro other holder
    cases holder
    refine ⟨_, [], Function.update_self .., inside, ?_, by rw [acquired], ?_⟩
    · rw [acquired, List.length_map]
    · rw [start] at instr
      rw [same]
      exact .single (show Alone m ⟨m.start running.call, state, []⟩ _ from .lock instr)
  · refine forall_update (fun running' same => ?_) fun other running' different there' => ?_
    · cases same
      exact (fits_of_inside inside).mpr rfl
    · have fits := (kept.threads other running' there').later
        (kept.outside there' (by rw [free]; exact nofun)) (some thread) []
      rwa [List.append_nil] at fits
  · intro entry member
    have descends := (kept.children entry member).later [] [running.call]
    rwa [List.append_nil] at descends

/-- A step of the lock's holder within its section. -/
theorem inside_keeps (kept : Invariant m initial system outcomes state)
    (there : system.threads thread = some running) (inside : m.phase running.point = .inside)
    {next : π} {shared : σ} {children : List (ℕ × χ)} (inside' : m.phase next = .inside)
    (alone : ∀ spawned, ∃ spawned',
      Alone m ⟨running.point, system.shared, spawned⟩ ⟨next, shared, spawned'⟩ ∧
      ∀ entry ∈ children, entry ∈ system.children ∨
        entry.1 = running.ticket ∧ entry.2 ∈ spawned') :
    Invariant m initial
      { system with
        shared, children
        threads := Function.update system.threads thread (some { running with point := next }) }
      outcomes state := by
  have holder := (fits_of_inside inside).mp (kept.threads thread running there)
  obtain ⟨running', spawned, there', _, ticket, acquired, ran⟩ := kept.held thread holder
  cases there.symm.trans there'
  obtain ⟨spawned', step, made⟩ := alone spawned
  refine ⟨kept.serial, fun free => ?_, ?_, ?_, kept.returned, ?_⟩
  · cases holder.symm.trans free
  · intro other holder'
    cases holder.symm.trans holder'
    exact ⟨_, spawned', Function.update_self .., inside', ticket, acquired, ran.tail step⟩
  · refine forall_update (fun running' same => ?_) fun other running' _ =>
      kept.threads other running'
    cases same
    exact (fits_of_inside inside').mpr holder
  · intro entry member
    rcases made entry member with old | ⟨mine, first⟩
    · exact kept.children entry old
    · refine ⟨state, running.call, _, entry.2, ?_, ?_, ?_, ran.tail step, first, .refl⟩
      · rw [mine, ticket]
      · rw [mine, ticket, List.take_length]
        exact kept.serial
      · rw [mine, ticket, acquired, List.getElem?_append_right (by rw [List.length_map]),
          List.length_map, Nat.sub_self, List.getElem?_cons_zero]

theorem unlock_keeps (kept : Invariant m initial system outcomes state)
    (there : system.threads thread = some running) {next : π}
    (instr : m.instr running.point = .unlock next) :
    ∃ result, Invariant m initial
      { system with
        holder := none
        threads := Function.update system.threads thread (some { running with point := next }) }
      (outcomes ++ [⟨running.call, result⟩]) system.shared := by
  obtain ⟨inside, after⟩ := phase_of_unlock instr
  obtain ⟨result, ends⟩ := ret_of_after after
  have holder := (fits_of_inside inside).mp (kept.threads thread running there)
  obtain ⟨running', spawned, there', _, ticket, acquired, ran⟩ := kept.held thread holder
  cases there.symm.trans there'
  have whole : AloneRun m ⟨m.start running.call, state, []⟩ ⟨next, system.shared, spawned⟩ :=
    ran.tail (show Alone m ⟨running.point, system.shared, spawned⟩ _ from .unlock instr)
  refine ⟨result, kept.serial.snoc whole ends, fun _ => ⟨rfl, ?_⟩, nofun, ?_, ?_, ?_⟩
  · rw [List.map_append]
    exact acquired
  · refine forall_update (fun running' same => ?_) fun other running' different there' => ?_
    · cases same
      rw [Fits, after]
      refine ⟨⟨running.call, result⟩, ?_, ends⟩
      rw [ticket, List.getElem?_append_right le_rfl, Nat.sub_self, List.getElem?_cons_zero]
    · have elsewhere : system.holder ≠ some other := fun held =>
        different (Option.some.inj (held.symm.trans holder))
      exact (kept.threads other running' there').later (kept.outside there' elsewhere) none _
  · intro entry member
    obtain ⟨outcome, found, same⟩ := kept.returned entry member
    exact ⟨outcome, getElem?_later found _, same⟩
  · intro entry member
    have descends := (kept.children entry member).later [⟨running.call, result⟩] []
    rwa [List.append_nil] at descends

theorem ret_keeps (kept : Invariant m initial system outcomes state)
    (there : system.threads thread = some running) {result : ρ}
    (instr : m.instr running.point = .ret result) :
    Invariant m initial
      { system with
        returned := system.returned ++ [(running.ticket, result)]
        threads := Function.update system.threads thread none }
      outcomes state := by
  have after := phase_of_ret instr
  refine ⟨kept.serial, kept.free, ?_, ?_, ?_, kept.children⟩
  · intro other holder
    obtain ⟨running', spawned, there', inside, rest⟩ := kept.held other holder
    have different : other ≠ thread := fun same => by
      subst same
      cases there.symm.trans there'
      rw [after] at inside
      cases inside
    exact ⟨running', spawned, (Function.update_of_ne different ..).trans there', inside, rest⟩
  · exact forall_update nofun fun other running' _ =>
      kept.threads other running'
  · intro entry member
    rcases List.mem_append.mp member with old | own
    · exact kept.returned entry old
    · cases List.mem_singleton.mp own
      have fits := kept.threads thread running there
      rw [Fits, after] at fits
      obtain ⟨outcome, found, ends⟩ := fits
      rw [instr] at ends
      cases ends
      exact ⟨outcome, found, rfl⟩

theorem child_keeps (kept : Invariant m initial system outcomes state) {index : ℕ} {entry : ℕ × χ}
    (there : system.children[index]? = some entry) {child : χ}
    (stepped : m.childStep entry.2 = some child) :
    Invariant m initial { system with children := system.children.set index (entry.1, child) }
      outcomes state := by
  refine ⟨kept.serial, kept.free, kept.held, kept.threads, kept.returned, fun other member => ?_⟩
  rcases List.mem_or_eq_of_mem_set member with old | rfl
  · exact kept.children other old
  · obtain ⟨state, call, config, first, within, serial, acquired, ran, made, gone⟩ :=
      kept.children entry (List.mem_of_getElem? there)
    exact ⟨state, call, config, first, within, serial, acquired, ran, made, gone.tail stepped⟩

/-- **One step of the system.** -/
theorem fire_keeps (kept : Invariant m initial system outcomes state) {event : Event κ τ}
    {after : System κ σ π ρ χ τ} (fired : fire m event system = some after) :
    ∃ outcomes' state', Invariant m initial after outcomes' state' := by
  cases event with
  | call thread call =>
    rw [fire] at fired
    split at fired
    · cases fired
    · rename_i idle
      cases fired
      exact ⟨outcomes, state, call_keeps kept idle call⟩
  | advance thread forks =>
    obtain ⟨running, there, advanced⟩ := Option.bind_eq_some_iff.mp fired
    rw [advance] at advanced
    split at advanced
    · rename_i next instr
      split at advanced
      · rename_i free
        cases advanced
        exact ⟨outcomes, state, lock_keeps kept there instr free⟩
      · cases advanced
    · rename_i action instr
      obtain ⟨inside, inside'⟩ := phase_of_access instr
      split at advanced
      · cases advanced
      · rename_i shared next done
        cases advanced
        refine ⟨outcomes, state, inside_keeps kept there inside (inside' _ _ _ done) fun spawned =>
          ⟨spawned, ?_, fun entry member => Or.inl member⟩⟩
        exact show Alone m ⟨running.point, system.shared, spawned⟩ _ from .access instr done
    · rename_i copy next instr
      obtain ⟨inside, inside'⟩ := phase_of_fork instr
      cases advanced
      refine ⟨outcomes, state, inside_keeps kept there inside (inside' forks) fun spawned =>
        ⟨_, show Alone m ⟨running.point, system.shared, spawned⟩ _ from .fork instr forks, ?_⟩⟩
      intro entry member
      cases forks with
      | false => exact Or.inl member
      | true =>
        rcases List.mem_append.mp member with old | new
        · exact Or.inl old
        · cases List.mem_singleton.mp new
          exact Or.inr ⟨rfl, List.mem_append_right _ (List.mem_singleton_self _)⟩
    · rename_i next instr
      cases advanced
      obtain ⟨result, kept'⟩ := unlock_keeps kept there instr
      exact ⟨_, _, kept'⟩
    · rename_i result instr
      cases advanced
      exact ⟨outcomes, state, ret_keeps kept there instr⟩
  | child index =>
    obtain ⟨entry, there, mapped⟩ := Option.bind_eq_some_iff.mp fired
    obtain ⟨child, stepped, same⟩ := Option.map_eq_some_iff.mp mapped
    subst same
    exact ⟨outcomes, state, child_keeps kept there stepped⟩

theorem initially_invariant (m : Machine κ σ ε π ρ χ) (initial : σ) :
    Invariant m initial (initially (τ := τ) initial) [] initial where
  serial := .nil
  free := fun _ => ⟨rfl, rfl⟩
  held := nofun
  threads := nofun
  returned := nofun
  children := nofun

/-- **Every interleaving is serial**: what the calls do is what they do alone, one after another, in
the order in which they took the lock. -/
theorem interleave_serial {events : List (Event κ τ)}
    (ran : interleave m events (initially initial) = some system) :
    ∃ outcomes state, Invariant m initial system outcomes state := by
  have run : ∀ (events : List (Event κ τ)) {before : System κ σ π ρ χ τ} {outcomes state},
      Invariant m initial before outcomes state → interleave m events before = some system →
      ∃ outcomes' state', Invariant m initial system outcomes' state' := by
    intro events
    induction events with
    | nil =>
      intro before outcomes state kept ran
      cases ran
      exact ⟨outcomes, state, kept⟩
    | cons event events ih =>
      intro before outcomes state kept ran
      obtain ⟨middle, fired, later⟩ := Option.bind_eq_some_iff.mp ran
      obtain ⟨outcomes', state', kept'⟩ := fire_keeps kept fired
      exact ih kept' later
  exact run events (initially_invariant m initial) ran

end Steps

/-! ### Calls as functions -/

/-- What is left to do at a point, as a function of the state and of whether a fork succeeds. -/
abbrev Finish (σ ε π ρ : Type) := Bool → π → σ → Except ε (ρ × σ)

/-- An instruction does its part of what is left to do. -/
def Instr.Does (finish : Finish σ ε π ρ) (left : Bool → σ → Except ε (ρ × σ)) :
    Instr σ ε π ρ χ → Prop
  | .lock next => ∀ forks shared, left forks shared = finish forks next shared
  | .access action => ∀ forks shared shared' next, action shared = .ok (shared', next) →
      left forks shared = finish forks next shared'
  | .fork _ next => ∀ forks forks' shared, left forks shared = finish forks' (next forks) shared
  | .unlock next => ∀ forks shared, left forks shared = finish forks next shared
  | .ret result => ∀ forks shared, left forks shared = .ok (result, shared)

/-- `finish` is what the machine does. -/
def BigStep (m : Machine κ σ ε π ρ χ) (finish : Finish σ ε π ρ) : Prop :=
  ∀ point, (m.instr point).Does finish fun forks shared => finish forks point shared

section Whole

variable {m : Machine κ σ ε π ρ χ} {finish : Finish σ ε π ρ}

/-- A step alone leaves the rest to do. -/
theorem BigStep.step (big : BigStep m finish) {config next : Config σ π χ}
    (alone : Alone m config next) (forks : Bool) :
    ∃ forks', finish forks' config.point config.shared = finish forks next.point next.shared := by
  have does := big config.point
  cases alone with
  | lock instr =>
    rw [instr] at does
    exact ⟨forks, does forks _⟩
  | access instr done =>
    rw [instr] at does
    exact ⟨forks, does forks _ _ _ done⟩
  | fork instr forked =>
    rw [instr] at does
    exact ⟨forked, does forked forks _⟩
  | unlock instr =>
    rw [instr] at does
    exact ⟨forks, does forks _⟩

/-- **A call that runs alone to its end** does what is left to do at its start. -/
theorem BigStep.whole (big : BigStep m finish) {config : Config σ π χ} {point : π} {final : σ}
    {spawned : List χ} {result : ρ} (ran : AloneRun m config ⟨point, final, spawned⟩)
    (ends : m.instr point = .ret result) :
    ∃ forks, finish forks config.point config.shared = .ok (result, final) := by
  induction ran using Relation.ReflTransGen.head_induction_on with
  | refl =>
    have does := big point
    rw [ends] at does
    exact ⟨true, does true final⟩
  | head alone _ ih =>
    obtain ⟨forks, finished⟩ := ih
    obtain ⟨forks', same⟩ := big.step alone forks
    exact ⟨forks', same.trans finished⟩

end Whole

end LockedCalls
