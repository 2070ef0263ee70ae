/-
**Programs over calls under one lock.**

`LockedCalls` lets any thread make any call at any time. Here each thread runs a program: `next`
says what it does at a state of its own, and what it makes of the result of a call. Between its
calls a program may work on what the programs share besides. There it sees how many children there
are and how many of them have come to their ends, and it may have to wait. `go` lets any thread take
its next step.

`Lives` is what a program does by itself, with whatever results. `run_ordered` says what a pool of
programs does in every run: there is one serial execution of all the calls, each with an owner, and
what a thread has lived through is the part that it owns. When the calls of a program do not depend
on what it sees and on its results, they are `Planned`, and the part is one of its plan.
-/

import Kvs.Lib.LockProgress

set_option linter.unusedSectionVars false

namespace LockedPrograms

open LockedCalls

variable {κ σ ε π ρ χ τ δ ς α : Type}

/-! ### Programs -/

/-- The children that were made, and those of them that have come to their ends. -/
structure Sight where
  made : ℕ
  ended : ℕ

/-- What a program does next. -/
inductive Next (κ ρ δ ς : Type) where
  | stop
  /-- A step that is not a call; none when it has to wait. -/
  | own (act : Sight → δ → Option (δ × ς))
  | call (call : κ) (receive : ρ → ς)

/-- What a program does by itself: the calls it makes, the results it gets and the state it has
come to. -/
inductive Lives (next : ς → Next κ ρ δ ς) (start : ς) : List (Outcome κ ρ) → ς → Prop where
  | start : Lives next start [] start
  | own {served : List (Outcome κ ρ)} {state after : ς} {act : Sight → δ → Option (δ × ς)}
      {sight : Sight} {side side' : δ} (lived : Lives next start served state)
      (own : next state = .own act) (acted : act sight side = some (side', after)) :
      Lives next start served after
  | call {served : List (Outcome κ ρ)} {state : ς} {call : κ} {receive : ρ → ς} {result : ρ}
      (lived : Lives next start served state) (calls : next state = .call call receive) :
      Lives next start (served ++ [⟨call, result⟩]) (receive result)

/-- A system of calls, what the programs share besides, and the states of their own. A thread within
a call keeps the state it made the call at. -/
structure Pool (κ σ π ρ χ τ δ ς : Type) where
  system : System κ σ π ρ χ τ
  side : δ
  states : τ → ς

/-- Whose turn it is. -/
inductive Turn (τ : Type) where
  /-- The thread's next step; if it is a fork, whether it succeeds. -/
  | go (thread : τ) (forks : Bool)
  | child (index : ℕ)

/-- No thread has made a call. -/
def begin (shared : σ) (side : δ) (starts : τ → ς) : Pool κ σ π ρ χ τ δ ς :=
  ⟨initially shared, side, starts⟩

section Run

variable (m : Machine κ σ ε π ρ χ) (next : ς → Next κ ρ δ ς)

/-- What there is to see of a system's children. -/
def sightOf (system : System κ σ π ρ χ τ) : Sight where
  made := system.children.length
  ended := system.children.countP fun entry => (m.childStep entry.2).isNone

/-- The state of a thread after a step within its call: another once the call returns. -/
def received (point : π) (state : ς) : ς :=
  match m.instr point, next state with
  | .ret result, .call _ receive => receive result
  | _, _ => state

variable [DecidableEq τ]

/-- A thread's next step; none when it has stopped or cannot move. -/
def go (thread : τ) (forks : Bool) (pool : Pool κ σ π ρ χ τ δ ς) :
    Option (Pool κ σ π ρ χ τ δ ς) :=
  match pool.system.threads thread with
  | none =>
    match next (pool.states thread) with
    | .stop => none
    | .own act =>
      (act (sightOf m pool.system) pool.side).map fun done =>
        { pool with side := done.1, states := Function.update pool.states thread done.2 }
    | .call call _ =>
      (fire m (.call thread call) pool.system).map fun system => { pool with system }
  | some running =>
    (advance m thread forks running pool.system).map fun system =>
      { pool with
        system
        states := Function.update pool.states thread
          (received m next running.point (pool.states thread)) }

/-- One step of the pool; none when it cannot be made. -/
def turn : Turn τ → Pool κ σ π ρ χ τ δ ς → Option (Pool κ σ π ρ χ τ δ ς)
  | .go thread forks, pool => go m next thread forks pool
  | .child index, pool => (fire m (.child index) pool.system).map fun system => { pool with system }

/-- Steps one after another. -/
abbrev run : List (Turn τ) → Pool κ σ π ρ χ τ δ ς → Option (Pool κ σ π ρ χ τ δ ς) :=
  Interleaving.run (turn m next)

end Run

/-! ### The children that are seen -/

section Seen

variable {m : Machine κ σ ε π ρ χ} {system after : System κ σ π ρ χ τ}

theorem sight_settled {system : System κ σ π ρ χ τ}
    (settled : ∀ entry ∈ system.children, m.childStep entry.2 = none) :
    (sightOf m system).ended = (sightOf m system).made :=
  List.countP_eq_length.mpr fun entry member => Option.isNone_iff_eq_none.mpr (settled entry member)

/-- The children that have not come to their ends. -/
theorem sight_running (m : Machine κ σ ε π ρ χ) (system : System κ σ π ρ χ τ) :
    (system.children.countP fun entry => (m.childStep entry.2).isSome) + (sightOf m system).ended =
      (sightOf m system).made := by
  rw [sightOf, List.length_eq_countP_add_countP fun entry => (m.childStep entry.2).isSome]
  congr 1
  refine List.countP_congr fun entry _ => ?_
  cases m.childStep entry.2 <;> simp

/-- A child that can still move has not come to its end. -/
theorem sight_moving {index : ℕ} {entry : ℕ × χ} {child : χ}
    (there : system.children[index]? = some entry) (moved : m.childStep entry.2 = some child) :
    (sightOf m system).ended < (sightOf m system).made := by
  refine List.countP_lt_length_iff.mpr ⟨entry, List.mem_of_getElem? there, ?_⟩
  rw [moved]
  rfl

/-- A child moves on, perhaps to its end. -/
theorem sight_child {index : ℕ} {entry : ℕ × χ} {child : χ}
    (there : system.children[index]? = some entry) (moved : m.childStep entry.2 = some child)
    (children : after.children = system.children.set index (entry.1, child)) :
    sightOf m after = ⟨(sightOf m system).made,
      (sightOf m system).ended + if (m.childStep child).isNone then 1 else 0⟩ := by
  obtain ⟨inRange, same⟩ := List.getElem?_eq_some_iff.mp there
  rw [sightOf, children, List.length_set, List.countP_set inRange, same, moved]
  rfl

/-- A child that is not at its end is made. -/
theorem sight_made {ticket : ℕ} {child : χ} (moves : (m.childStep child).isSome)
    (children : after.children = system.children ++ [(ticket, child)]) :
    sightOf m after = ⟨(sightOf m system).made + 1, (sightOf m system).ended⟩ := by
  rw [sightOf, children, List.length_append, List.countP_append, List.countP_singleton]
  rw [if_neg (by rw [Option.isNone_iff_eq_none]; exact Option.isSome_iff_ne_none.mp moves)]
  rfl

end Seen

/-! ### What a step comes to -/

section Turned

variable (m : Machine κ σ ε π ρ χ) (next : ς → Next κ ρ δ ς) [DecidableEq τ]
  (pool : Pool κ σ π ρ χ τ δ ς)

/-- A step of the pool, by who makes it and what at. -/
inductive Turned : Turn τ → Pool κ σ π ρ χ τ δ ς → Prop where
  | child {index : ℕ} {entry : ℕ × χ} {child : χ}
      (there : pool.system.children[index]? = some entry)
      (moved : m.childStep entry.2 = some child) :
      Turned (.child index) { pool with
        system := { pool.system with
          children := pool.system.children.set index (entry.1, child) } }
  | own {thread : τ} {forks : Bool} {act : Sight → δ → Option (δ × ς)} {side : δ} {after : ς}
      (idle : pool.system.threads thread = none) (own : next (pool.states thread) = .own act)
      (acted : act (sightOf m pool.system) pool.side = some (side, after)) :
      Turned (.go thread forks) { pool with
        side, states := Function.update pool.states thread after }
  | call {thread : τ} {forks : Bool} {call : κ} {receive : ρ → ς}
      (idle : pool.system.threads thread = none)
      (calls : next (pool.states thread) = .call call receive) :
      Turned (.go thread forks) { pool with
        system := { pool.system with
          threads := Function.update pool.system.threads thread (some ⟨call, m.start call, 0⟩) } }
  | advance {thread : τ} {forks : Bool} {running : Running κ π} {system : System κ σ π ρ χ τ}
      (there : pool.system.threads thread = some running)
      (advanced : advance m thread forks running pool.system = some system) :
      Turned (.go thread forks) { pool with
        system
        states := Function.update pool.states thread
          (received m next running.point (pool.states thread)) }

variable {m next pool} {pool' : Pool κ σ π ρ χ τ δ ς}

/-- **The inversion lemma** of a step of the pool. -/
theorem turn_turned {step : Turn τ} (stepped : turn m next step pool = some pool') :
    Turned m next pool step pool' := by
  cases step with
  | child index =>
    obtain ⟨after, fired, rfl⟩ := Option.map_eq_some_iff.mp stepped
    obtain ⟨entry, there, mapped⟩ := Option.bind_eq_some_iff.mp fired
    obtain ⟨child, moved, rfl⟩ := Option.map_eq_some_iff.mp mapped
    exact .child there moved
  | go thread forks =>
    rw [turn, go] at stepped
    split at stepped
    · rename_i idle
      split at stepped
      · cases stepped
      · rename_i act own
        obtain ⟨⟨side, after⟩, acted, rfl⟩ := Option.map_eq_some_iff.mp stepped
        exact .own idle own acted
      · rename_i call receive calls
        obtain ⟨after, fired, rfl⟩ := Option.map_eq_some_iff.mp stepped
        rw [fire, idle] at fired
        cases fired
        exact .call idle calls
    · rename_i running there
      obtain ⟨system, advanced, rfl⟩ := Option.map_eq_some_iff.mp stepped
      exact .advance there advanced

end Turned

/-! ### What a thread owns -/

section Owned

variable [DecidableEq τ]

/-- The part of an execution that a thread owns. -/
def owned (thread : τ) (execution : List (τ × α)) : List α :=
  (execution.filter fun entry => entry.1 = thread).map Prod.snd

theorem owned_append (thread : τ) (earlier later : List (τ × α)) :
    owned thread (earlier ++ later) = owned thread earlier ++ owned thread later := by
  rw [owned, List.filter_append, List.map_append]
  rfl

theorem owned_own (thread : τ) (execution : List (τ × α)) (value : α) :
    owned thread (execution ++ [(thread, value)]) = owned thread execution ++ [value] := by
  rw [owned_append]
  simp [owned]

theorem owned_other {thread other : τ} (different : other ≠ thread) (execution : List (τ × α))
    (value : α) : owned other (execution ++ [(thread, value)]) = owned other execution := by
  rw [owned_append]
  simp [owned, different.symm]

theorem mem_owned {thread : τ} {value : α} {execution : List (τ × α)}
    (member : (thread, value) ∈ execution) : value ∈ owned thread execution :=
  List.mem_map.mpr ⟨(thread, value), List.mem_filter.mpr ⟨member, decide_eq_true rfl⟩, rfl⟩

theorem owned_map {β : Type} (change : α → β) (thread : τ) (execution : List (τ × α)) :
    owned thread (execution.map (Prod.map id change)) = (owned thread execution).map change := by
  induction execution with
  | nil => rfl
  | cons entry execution ih =>
    by_cases own : entry.1 = thread <;> simpa [owned, own] using ih

end Owned

/-! ### The invariant -/

section Invariant

variable (m : Machine κ σ ε π ρ χ) (next : ς → Next κ ρ δ ς)

/-- Where a thread stands that started at a state and has been served some calls: between two calls,
within the next one, or behind it and about to get its result. -/
inductive Stands (start : ς) : Option (Running κ π) → ς → List (Outcome κ ρ) → Prop where
  | between {state : ς} {served : List (Outcome κ ρ)} (lived : Lives next start served state) :
      Stands start none state served
  | within {running : Running κ π} {state : ς} {served : List (Outcome κ ρ)} {receive : ρ → ς}
      (lived : Lives next start served state)
      (calls : next state = .call running.call receive)
      (early : m.phase running.point ≠ .after) : Stands start (some running) state served
  | behind {running : Running κ π} {state : ς} {served : List (Outcome κ ρ)} {receive : ρ → ς}
      {result : ρ} (lived : Lives next start served state)
      (calls : next state = .call running.call receive)
      (ends : m.instr running.point = .ret result) :
      Stands start (some running) state (served ++ [⟨running.call, result⟩])

variable [DecidableEq τ]

/-- The calls run one after another as in `execution`, and every thread has lived through what it
owns of that. -/
structure Ordered (initial : σ) (starts : τ → ς) (pool : Pool κ σ π ρ χ τ δ ς)
    (execution : List (τ × Outcome κ ρ)) (state : σ) : Prop where
  calls : LockedCalls.Invariant m initial pool.system (execution.map Prod.snd) state
  threads : ∀ thread, Stands m next (starts thread) (pool.system.threads thread)
    (pool.states thread) (owned thread execution)

end Invariant

section Steps

variable {m : Machine κ σ ε π ρ χ} {next : ς → Next κ ρ δ ς} {initial state : σ} {side : δ}
  {starts : τ → ς}
  {system after : System κ σ π ρ χ τ} {outcomes : List (Outcome κ ρ)} {thread : τ}
  {running : Running κ π} [DecidableEq τ]

/-! ### What a step within a call comes to -/

section Advances

variable (m initial system outcomes state thread running after)

/-- The step works on the call, gives the lock back, or returns. -/
inductive Advances : Prop where
  | works {moved : Running κ π}
      (threads : after.threads = Function.update system.threads thread (some moved))
      (same : moved.call = running.call) (early : m.phase running.point ≠ .after)
      (early' : m.phase moved.point ≠ .after)
      (kept : LockedCalls.Invariant m initial after outcomes state)
  | leaves {moved : Running κ π} {result : ρ}
      (threads : after.threads = Function.update system.threads thread (some moved))
      (same : moved.call = running.call) (early : m.phase running.point ≠ .after)
      (ends : m.instr moved.point = .ret result)
      (kept : LockedCalls.Invariant m initial after (outcomes ++ [⟨running.call, result⟩])
        system.shared)
  | returns {result : ρ} (threads : after.threads = Function.update system.threads thread none)
      (ends : m.instr running.point = .ret result)
      (kept : LockedCalls.Invariant m initial after outcomes state)

end Advances

theorem early_of_inside {point : π} (inside : m.phase point = .inside) :
    m.phase point ≠ .after := by
  rw [inside]
  decide

/-- **The inversion lemma** of a step within a call. -/
theorem advance_advances (kept : LockedCalls.Invariant m initial system outcomes state)
    (there : system.threads thread = some running) {forks : Bool}
    (advanced : advance m thread forks running system = some after) :
    Advances m initial state system after outcomes thread running := by
  rw [advance] at advanced
  split at advanced
  · rename_i point instr
    split at advanced
    · rename_i free
      cases advanced
      obtain ⟨before, inside⟩ := phase_of_lock instr
      exact .works rfl rfl (by rw [before]; decide) (early_of_inside inside)
        (lock_keeps kept there instr free)
    · cases advanced
  · rename_i action instr
    obtain ⟨inside, inside'⟩ := phase_of_access instr
    split at advanced
    · cases advanced
    · rename_i shared point done
      cases advanced
      refine .works rfl rfl (early_of_inside inside) (early_of_inside (inside' _ _ _ done))
        (inside_keeps kept there inside (inside' _ _ _ done) fun spawned =>
          ⟨spawned, ?_, fun entry member => Or.inl member⟩)
      exact show Alone m ⟨running.point, system.shared, spawned⟩ _ from .access instr done
  · rename_i copy point instr
    obtain ⟨inside, inside'⟩ := phase_of_fork instr
    cases advanced
    refine .works rfl rfl (early_of_inside inside) (early_of_inside (inside' forks))
      (inside_keeps kept there inside (inside' forks) fun spawned =>
        ⟨_, show Alone m ⟨running.point, system.shared, spawned⟩ _ from .fork instr forks, ?_⟩)
    intro entry member
    cases forks with
    | false => exact Or.inl member
    | true =>
      rcases List.mem_append.mp member with old | new
      · exact Or.inl old
      · cases List.mem_singleton.mp new
        exact Or.inr ⟨rfl, List.mem_append_right _ (List.mem_singleton_self _)⟩
  · rename_i point instr
    obtain ⟨inside, behind⟩ := phase_of_unlock instr
    cases advanced
    obtain ⟨result, kept'⟩ := unlock_keeps kept there instr
    -- the outcome added is the one the thread is about to return
    have holder := (fits_of_inside inside).mp (kept.threads thread running there)
    obtain ⟨running', _, there', _, ticket, _⟩ := kept.held thread holder
    cases there.symm.trans there'
    have fits := kept'.threads thread _ (Function.update_self ..)
    rw [Fits, behind] at fits
    obtain ⟨outcome, last, ends⟩ := fits
    rw [ticket, List.getElem?_concat_length] at last
    cases last
    exact .leaves rfl rfl (early_of_inside inside) ends kept'
  · rename_i result instr
    cases advanced
    exact .returns rfl instr (ret_keeps kept there instr)

/-! ### The steps keep the invariant -/

variable {pool pool' : Pool κ σ π ρ χ τ δ ς} {execution : List (τ × Outcome κ ρ)}

/-- A step of one thread concerns only where that thread stands. -/
theorem stands_update {value : Option (Running κ π)} {own : ς}
    {execution' : List (τ × Outcome κ ρ)}
    (before : ∀ other, Stands m next (starts other) (system.threads other) (pool.states other)
      (owned other execution))
    (others : ∀ other, other ≠ thread → owned other execution' = owned other execution)
    (mine : Stands m next (starts thread) value own (owned thread execution')) (other : τ) :
    Stands m next (starts other) (Function.update system.threads thread value other)
      (Function.update pool.states thread own other) (owned other execution') := by
  by_cases same : other = thread
  · subst same
    rwa [Function.update_self, Function.update_self]
  · rw [Function.update_of_ne same, Function.update_of_ne same, others other same]
    exact before other

theorem received_busy {point : π} (busy : ∀ result, m.instr point ≠ .ret result) (own : ς) :
    received m next point own = own := by
  rw [received]
  split
  · rename_i ends _
    exact absurd ends (busy _)
  · rfl

theorem received_early {point : π} (early : m.phase point ≠ .after) (own : ς) :
    received m next point own = own :=
  received_busy (fun _ ends => early (phase_of_ret ends)) own

theorem received_ret {point : π} {result : ρ} {own : ς} {call : κ} {receive : ρ → ς}
    (ends : m.instr point = .ret result) (calls : next own = .call call receive) :
    received m next point own = receive result := by
  rw [received, ends, calls]

/-- **One step** of the pool. The execution only grows. -/
theorem turn_ordered (ordered : Ordered m next initial starts pool execution state) {step : Turn τ}
    (stepped : turn m next step pool = some pool') :
    ∃ execution' state', Ordered m next initial starts pool' execution' state' ∧
      execution <+: execution' := by
  cases turn_turned stepped with
  | child there moved =>
    exact ⟨execution, state, ⟨child_keeps ordered.calls there moved, ordered.threads⟩,
      List.prefix_rfl⟩
  | @own thread _ act side after idle own acted =>
    have stands := ordered.threads thread
    rw [idle] at stands
    cases stands with
    | between lived =>
      refine ⟨execution, state, ⟨ordered.calls, fun other => ?_⟩, List.prefix_rfl⟩
      have stands' := stands_update ordered.threads (fun _ _ => rfl)
        (.between (lived.own own acted)) other
      rwa [← idle, Function.update_eq_self] at stands'
  | @call thread _ call receive idle calls =>
    have stands := ordered.threads thread
    rw [idle] at stands
    cases stands with
    | between lived =>
      refine ⟨execution, state, ⟨call_keeps ordered.calls idle call, fun other => ?_⟩,
        List.prefix_rfl⟩
      have early : m.phase (m.start call) ≠ .after := by
        rw [m.start_before]
        decide
      have entered : Stands m next (starts thread) (some ⟨call, m.start call, 0⟩)
          (pool.states thread) (owned thread execution) := .within lived calls early
      have stands' := stands_update ordered.threads (fun _ _ => rfl) entered other
      rwa [Function.update_eq_self] at stands'
  | @advance thread _ running after there advanced =>
    have stands := ordered.threads thread
    rw [there] at stands
    cases advance_advances ordered.calls there advanced with
    | works threads same early early' kept =>
      refine ⟨execution, state, ⟨kept, fun other => ?_⟩, List.prefix_rfl⟩
      dsimp only
      rw [threads, received_early early]
      refine stands_update ordered.threads (fun _ _ => rfl) ?_ other
      generalize owned thread execution = served at stands ⊢
      cases stands with
      | within lived calls _ => exact .within lived (same ▸ calls) early'
      | behind _ _ ends => exact absurd (phase_of_ret ends) early
    | @leaves moved result threads same early ends kept =>
      refine ⟨execution ++ [(thread, ⟨running.call, result⟩)], pool.system.shared,
        ⟨?_, fun other => ?_⟩, List.prefix_append _ _⟩
      · rw [List.map_append]
        exact kept
      · dsimp only
        rw [threads, received_early early]
        refine stands_update ordered.threads (fun other different => owned_other different _ _) ?_
          other
        rw [owned_own, ← same]
        generalize owned thread execution = served at stands ⊢
        cases stands with
        | within lived calls _ => exact .behind lived (same ▸ calls) ends
        | behind _ _ ends => exact absurd (phase_of_ret ends) early
    | returns threads ends kept =>
      refine ⟨execution, state, ⟨kept, fun other => ?_⟩, List.prefix_rfl⟩
      dsimp only
      rw [threads]
      refine stands_update ordered.threads (fun _ _ => rfl) (.between ?_) other
      generalize owned thread execution = served at stands
      cases stands with
      | within _ _ early => exact absurd (phase_of_ret ends) early
      | behind lived calls ends' =>
        rw [received_ret ends calls]
        cases ends.symm.trans ends'
        exact lived.call calls

theorem begin_ordered (m : Machine κ σ ε π ρ χ) (next : ς → Next κ ρ δ ς) (initial : σ) (side : δ)
    (starts : τ → ς) : Ordered m next initial starts (begin initial side starts) [] initial :=
  ⟨initially_invariant m initial, fun _ => .between .start⟩

/-- **The run lemma.** -/
theorem run_ordered_from {turns : List (Turn τ)}
    (ordered : Ordered m next initial starts pool execution state)
    (ran : run m next turns pool = some pool') :
    ∃ execution' state', Ordered m next initial starts pool' execution' state' ∧
      execution <+: execution' := by
  induction turns generalizing pool execution state with
  | nil =>
    cases ran
    exact ⟨execution, state, ordered, List.prefix_rfl⟩
  | cons first turns ih =>
    obtain ⟨middle, stepped, later⟩ := Interleaving.run_cons.mp ran
    obtain ⟨execution', state', ordered', grows⟩ := turn_ordered ordered stepped
    obtain ⟨execution'', state'', ordered'', grows'⟩ := ih ordered' later
    exact ⟨execution'', state'', ordered'', grows.trans grows'⟩

/-- **Every run of a pool is a serial execution** of which every thread has lived its part. -/
theorem run_ordered {turns : List (Turn τ)}
    (ran : run m next turns (begin initial side starts) = some pool) :
    ∃ execution state, Ordered m next initial starts pool execution state := by
  obtain ⟨execution, state, ordered, _⟩ :=
    run_ordered_from (begin_ordered m next initial side starts) ran
  exact ⟨execution, state, ordered⟩

end Steps

/-! ### Programs whose calls are known -/

section Planned

/-- The calls ahead of a program do not depend on what it sees and gets. -/
structure Planned (next : ς → Next κ ρ δ ς) (ahead : ς → List κ) : Prop where
  stop : ∀ {state}, next state = .stop → ahead state = []
  own : ∀ {state act sight side side' after}, next state = .own act →
    act sight side = some (side', after) → ahead after = ahead state
  call : ∀ {state call receive}, next state = .call call receive →
    ∃ later, ahead state = call :: later ∧ ∀ result, ahead (receive result) = later

variable {m : Machine κ σ ε π ρ χ} {next : ς → Next κ ρ δ ς} {ahead : ς → List κ}
  {initial state : σ} {starts : τ → ς} {pool : Pool κ σ π ρ χ τ δ ς}
  {execution : List (τ × Outcome κ ρ)}

theorem Lives.planned (planned : Planned next ahead) {start own : ς}
    {served : List (Outcome κ ρ)} (lived : Lives next start served own) :
    ahead start = served.map Outcome.call ++ ahead own := by
  induction lived with
  | start => rfl
  | own _ does acted ih => rw [ih, planned.own does acted]
  | @call served own call receive result _ does ih =>
    obtain ⟨later, first, rest⟩ := planned.call does
    rw [ih, first, rest, List.map_append, List.append_assoc]
    rfl

variable [DecidableEq τ]

/-- A call that is over stands in its thread's plan, and so does the one the thread is within. -/
theorem Stands.planned (planned : Planned next ahead) {start own : ς}
    {running : Option (Running κ π)} {served : List (Outcome κ ρ)}
    (stands : Stands m next start running own served) :
    served.map Outcome.call <+: ahead start ∧
      ∀ within, running = some within → m.phase within.point ≠ .after →
        served.map Outcome.call ++ [within.call] <+: ahead start := by
  cases stands with
  | between lived =>
    rw [lived.planned planned]
    exact ⟨List.prefix_append _ _, fun _ same => by cases same⟩
  | within lived calls early =>
    obtain ⟨later, first, _⟩ := planned.call calls
    rw [lived.planned planned, first]
    refine ⟨List.prefix_append _ _, ?_⟩
    rintro within same _
    cases same
    exact ⟨later, (List.append_cons ..).symm⟩
  | @behind running own served receive result lived calls ends =>
    obtain ⟨later, first, _⟩ := planned.call calls
    rw [lived.planned planned, first, List.map_append]
    refine ⟨⟨later, (List.append_cons ..).symm⟩, ?_⟩
    rintro within same early
    cases same
    exact absurd (phase_of_ret ends) early

/-- The calls that have taken the lock, each with its owner: those that are over and, when the lock
is held, its holder's. Every thread's come in the order it has them planned. -/
theorem Ordered.planned (planned : Planned next ahead)
    (ordered : Ordered m next initial starts pool execution state) :
    ∃ serial : List (τ × κ), pool.system.acquired = serial.map Prod.snd ∧
      execution.map (Prod.map id Outcome.call) <+: serial ∧ ∀ thread,
        owned thread serial <+: ahead (starts thread) ∧ (pool.system.threads thread = none →
          owned thread serial = (owned thread execution).map Outcome.call) := by
  have calls : (execution.map (Prod.map id Outcome.call)).map Prod.snd =
      (execution.map Prod.snd).map Outcome.call := by
    rw [List.map_map, List.map_map]
    rfl
  cases holder : pool.system.holder with
  | none =>
    refine ⟨execution.map (Prod.map id Outcome.call), ?_, List.prefix_rfl, fun thread => ?_⟩
    · rw [(ordered.calls.free holder).2, calls]
    · rw [owned_map]
      exact ⟨((ordered.threads thread).planned planned).1, fun _ => rfl⟩
  | some thread =>
    obtain ⟨running, _, there, inside, _, acquired, _⟩ := ordered.calls.held thread holder
    refine ⟨execution.map (Prod.map id Outcome.call) ++ [(thread, running.call)], ?_,
      List.prefix_append _ _, fun other => ?_⟩
    · rw [acquired, List.map_append, calls]
      rfl
    · have stands := (ordered.threads other).planned planned
      by_cases same : other = thread
      · subst same
        rw [owned_own, owned_map]
        refine ⟨stands.2 running there (early_of_inside inside), fun idle => ?_⟩
        cases there.symm.trans idle
      · rw [owned_other same, owned_map]
        exact ⟨stands.1, fun _ => rfl⟩

end Planned

end LockedPrograms
