/-
**Calls under one lock come to an end.**

Three numbers say how far a system of `LockedCalls` still has to go when no new call is made: the
calls that wait for the lock, what is left of the section of its holder, and the returns and the
children's steps to come. Every step of a thread or a child makes them smaller in this order: a
section may make the table longer, and with it the sections behind it, so no sum would do.

* `Bounded` is what a machine has to bring: a bound on each section, and points from which no
  access faults.
* `sound_acc`: no schedule goes on for ever.
* `busy_advances`: as long as a thread is within a call, some thread can take a step.
* `settled_returned`: a schedule that can go no further has returned every call made.
-/

import Kvs.Lib.Interleaving
import Kvs.Lib.LockedCalls

set_option linter.unusedSectionVars false

namespace LockedCalls

variable {κ σ ε π ρ χ τ : Type}

/-! ### Sections that end -/

/-- From a safe point no access faults, and every step within a section makes `left` smaller. -/
structure Bounded (m : Machine κ σ ε π ρ χ) (safe : π → Prop) (left : π → σ → ℕ)
    (childLeft : χ → ℕ) : Prop where
  lock : ∀ {point next}, m.instr point = .lock next → safe point → safe next
  access : ∀ {point action}, m.instr point = .access action → safe point → ∀ shared,
    ∃ shared' next, action shared = .ok (shared', next) ∧ safe next ∧
      left next shared' < left point shared
  fork : ∀ {point copy next}, m.instr point = .fork copy next → safe point → ∀ forks,
    safe (next forks) ∧ ∀ shared, left (next forks) shared < left point shared
  unlock : ∀ {point next}, m.instr point = .unlock next → safe point →
    safe next ∧ ∀ shared, 0 < left point shared
  child : ∀ {child next}, m.childStep child = some next → childLeft next < childLeft child

/-- A step of a thread or of a child, not a new call. -/
def Event.IsStep : Event κ τ → Prop
  | .call _ _ => False
  | _ => True

/-- A call is made. -/
def Event.isCall : Event κ τ → Bool
  | .call _ _ => true
  | _ => false

variable (m : Machine κ σ ε π ρ χ) [DecidableEq τ]

/-- A system and one that a step makes of it. -/
def Going (after before : System κ σ π ρ χ τ) : Prop :=
  ∃ event : Event κ τ, event.IsStep ∧ fire m event before = some after

/-- No step can be made. -/
def Settled (system : System κ σ π ρ χ τ) : Prop :=
  ∀ event : Event κ τ, event.IsStep → fire m event system = none

/-- Every thread within a call is at a safe point. -/
def AllSafe (safe : π → Prop) (system : System κ σ π ρ χ τ) : Prop :=
  ∀ thread running, system.threads thread = some running → safe running.point

variable {m} {safe : π → Prop} {left : π → σ → ℕ} {childLeft : χ → ℕ}
  {initial state : σ} {system after : System κ σ π ρ χ τ} {outcomes : List (Outcome κ ρ)}

/-! ### Threads are safe -/

theorem advance_safe (bounded : Bounded m safe left childLeft) (allSafe : AllSafe safe system)
    {thread : τ} {forks : Bool} {running : Running κ π}
    (there : system.threads thread = some running)
    (advanced : advance m thread forks running system = some after) : AllSafe safe after := by
  have here := allSafe thread running there
  have others : ∀ other running, other ≠ thread → system.threads other = some running →
      safe running.point := fun other running _ => allSafe other running
  rw [advance] at advanced
  split at advanced
  · rename_i next instr
    split at advanced
    · cases advanced
      exact forall_update (fun _ same => by cases same; exact bounded.lock instr here) others
    · cases advanced
  · rename_i action instr
    obtain ⟨shared, next, done, safeNext, _⟩ := bounded.access instr here system.shared
    rw [done] at advanced
    cases advanced
    exact forall_update (fun _ same => by cases same; exact safeNext) others
  · rename_i copy next instr
    cases advanced
    exact forall_update
      (fun _ same => by cases same; exact (bounded.fork instr here forks).1) others
  · rename_i next instr
    cases advanced
    exact forall_update (fun _ same => by cases same; exact (bounded.unlock instr here).1) others
  · cases advanced
    exact forall_update (fun _ same => by cases same) others

theorem fire_safe (bounded : Bounded m safe left childLeft) (allSafe : AllSafe safe system)
    {event : Event κ τ}
    (starts : ∀ thread call, event = .call thread call → safe (m.start call))
    (fired : fire m event system = some after) : AllSafe safe after := by
  cases event with
  | call thread call =>
    rw [fire] at fired
    split at fired
    · cases fired
    · cases fired
      exact forall_update (fun _ same => by cases same; exact starts thread call rfl)
        fun other running _ => allSafe other running
  | advance thread forks =>
    obtain ⟨running, there, advanced⟩ := Option.bind_eq_some_iff.mp fired
    exact advance_safe bounded allSafe there advanced
  | child index =>
    obtain ⟨entry, _, mapped⟩ := Option.bind_eq_some_iff.mp fired
    obtain ⟨child, _, same⟩ := Option.map_eq_some_iff.mp mapped
    subst same
    exact allSafe

/-! ### The calls of a schedule -/

/-- Every call made, and every one that took the lock, is a wanted one. -/
structure Wanted (wanted : κ → Prop) (system : System κ σ π ρ χ τ) : Prop where
  threads : ∀ thread running, system.threads thread = some running → wanted running.call
  acquired : ∀ call ∈ system.acquired, wanted call

theorem fire_wanted {wanted : κ → Prop} (kept : Wanted wanted system) {event : Event κ τ}
    (starts : ∀ thread call, event = .call thread call → wanted call)
    (fired : fire m event system = some after) : Wanted wanted after := by
  cases event with
  | call thread call =>
    rw [fire] at fired
    split at fired <;> cases fired
    exact ⟨forall_update (fun _ same => by cases same; exact starts thread call rfl)
      fun other running _ => kept.threads other running, kept.acquired⟩
  | advance thread forks =>
    obtain ⟨running, there, advanced⟩ := Option.bind_eq_some_iff.mp fired
    have here := kept.threads thread running there
    have others : ∀ other running, other ≠ thread → system.threads other = some running →
        wanted running.call := fun other running _ => kept.threads other running
    rw [advance] at advanced
    split at advanced
    · split at advanced <;> cases advanced
      refine ⟨forall_update (fun _ same => by cases same; exact here) others, ?_⟩
      exact List.forall_mem_append.mpr ⟨kept.acquired, List.forall_mem_singleton.mpr here⟩
    · split at advanced <;> cases advanced
      exact ⟨forall_update (fun _ same => by cases same; exact here) others, kept.acquired⟩
    · cases advanced
      exact ⟨forall_update (fun _ same => by cases same; exact here) others, kept.acquired⟩
    · cases advanced
      exact ⟨forall_update (fun _ same => by cases same; exact here) others, kept.acquired⟩
    · cases advanced
      exact ⟨forall_update (fun _ same => by cases same) others, kept.acquired⟩
  | child index =>
    obtain ⟨entry, _, mapped⟩ := Option.bind_eq_some_iff.mp fired
    obtain ⟨child, _, rfl⟩ := Option.map_eq_some_iff.mp mapped
    exact ⟨kept.threads, kept.acquired⟩

/-- Only calls of the schedule take the lock. -/
theorem interleave_wanted {wanted : κ → Prop} {events : List (Event κ τ)}
    (kept : Wanted wanted system)
    (starts : ∀ thread call, Event.call thread call ∈ events → wanted call)
    (ran : interleave m events system = some after) : Wanted wanted after := by
  induction events generalizing system with
  | nil =>
    cases ran
    exact kept
  | cons event events ih =>
    obtain ⟨middle, fired, later⟩ := Option.bind_eq_some_iff.mp ran
    have first := fire_wanted kept (fun thread call same =>
      starts thread call (same ▸ List.mem_cons_self)) fired
    exact ih first (fun thread call member => starts thread call (List.mem_cons_of_mem _ member))
      later

theorem initially_wanted {wanted : κ → Prop} (initial : σ) :
    Wanted wanted (initially initial : System κ σ π ρ χ τ) :=
  ⟨nofun, fun _ member => absurd member List.not_mem_nil⟩

/-- The sections that are over come first among those that took the lock. -/
theorem Invariant.acquired (kept : Invariant m initial system outcomes state) :
    ∃ rest, system.acquired = outcomes.map Outcome.call ++ rest := by
  cases holder : system.holder with
  | none => exact ⟨[], by rw [(kept.free holder).2, List.append_nil]⟩
  | some thread =>
    obtain ⟨running, _, _, _, _, acquired, _⟩ := kept.held thread holder
    exact ⟨[running.call], acquired⟩

/-- The calls before a ticket. -/
theorem Invariant.acquired_take (kept : Invariant m initial system outcomes state) {ticket : ℕ}
    (within : ticket ≤ outcomes.length) :
    system.acquired.take ticket = (outcomes.take ticket).map Outcome.call := by
  obtain ⟨rest, same⟩ := kept.acquired
  rw [same, List.take_append_of_le_length (by rwa [List.length_map]), List.map_take]

/-! ### No deadlock -/

/-- **Some thread can take a step** as long as one is within a call. -/
theorem busy_advances (bounded : Bounded m safe left childLeft)
    (kept : Invariant m initial system outcomes state) (allSafe : AllSafe safe system)
    {thread : τ} {running : Running κ π} (busy : system.threads thread = some running) :
    ∃ mover, (fire m (.advance mover true) system).isSome := by
  cases holder : system.holder with
  | some inside =>
    obtain ⟨running, _, there, phase, _⟩ := kept.held inside holder
    refine ⟨inside, ?_⟩
    have here := allSafe inside running there
    rw [fire, there, Option.bind_some, advance]
    cases instr : m.instr running.point with
    | lock next =>
      rw [(phase_of_lock instr).1] at phase
      cases phase
    | access action =>
      obtain ⟨shared, next, done, _⟩ := bounded.access instr here system.shared
      dsimp only
      rw [done]
      rfl
    | fork copy next => rfl
    | unlock next => rfl
    | ret result =>
      rw [phase_of_ret instr] at phase
      cases phase
  | none =>
    refine ⟨thread, ?_⟩
    have outside := kept.outside busy (by simp [holder])
    rw [fire, busy, Option.bind_some, advance]
    cases instr : m.instr running.point with
    | lock next =>
      dsimp only
      rw [if_pos holder]
      rfl
    | access action => exact absurd (phase_of_access instr).1 outside
    | fork copy next => exact absurd (phase_of_fork instr).1 outside
    | unlock next => exact absurd (phase_of_unlock instr).1 outside
    | ret result => rfl

/-! ### How far a system still has to go -/

/-- The threads at a point of the phase, counted. -/
def inPhase (m : Machine κ σ ε π ρ χ) (phase : Phase) : Option (Running κ π) → ℕ
  | some running => if m.phase running.point = phase then 1 else 0
  | none => 0

/-- What is left of the holder's section. -/
def sectionLeft (left : π → σ → ℕ) (system : System κ σ π ρ χ τ) : ℕ :=
  match system.holder with
  | some thread =>
    ((system.threads thread).map fun running => left running.point system.shared).getD 0
  | none => 0

section Measure

variable (m left childLeft) [Fintype τ]

/-- The threads within a call at a point of the phase. -/
def phaseCount (phase : Phase) (system : System κ σ π ρ χ τ) : ℕ :=
  ∑ thread, inPhase m phase (system.threads thread)

/-- The steps of the children to come. -/
def childrenLeft (system : System κ σ π ρ χ τ) : ℕ :=
  (system.children.map fun entry => childLeft entry.2).sum

/-- The calls that wait, what is left of the section, and the returns and the children's steps. -/
def remaining (system : System κ σ π ρ χ τ) : ℕ ×ₗ ℕ ×ₗ ℕ :=
  toLex (phaseCount m .before system, toLex (sectionLeft left system,
    phaseCount m .after system + childrenLeft childLeft system))

end Measure

section Decrease

variable [Fintype τ]

theorem phaseCount_update {running : Running κ π} {thread : τ}
    (there : system.threads thread = some running) (phase : Phase)
    (value : Option (Running κ π))
    (threads : after.threads = Function.update system.threads thread value) :
    phaseCount m phase after + inPhase m phase (some running) =
      phaseCount m phase system + inPhase m phase value := by
  rw [phaseCount, threads, ← there]
  exact Interleaving.sum_update (fun _ => inPhase m phase) system.threads thread value

theorem remaining_lt_iff : remaining m left childLeft after < remaining m left childLeft system ↔
    phaseCount m .before after < phaseCount m .before system ∨
      phaseCount m .before after = phaseCount m .before system ∧
        (sectionLeft left after < sectionLeft left system ∨
          sectionLeft left after = sectionLeft left system ∧
            phaseCount m .after after + childrenLeft childLeft after <
              phaseCount m .after system + childrenLeft childLeft system) := by
  rw [remaining, remaining, Prod.Lex.toLex_lt_toLex, Prod.Lex.toLex_lt_toLex]

theorem inPhase_same {phase : Phase} {running : Running κ π}
    (same : m.phase running.point = phase) : inPhase m phase (some running) = 1 := if_pos same

theorem inPhase_other {phase phase' : Phase} {running : Running κ π}
    (same : m.phase running.point = phase') (different : phase' ≠ phase) :
    inPhase m phase (some running) = 0 := if_neg (same ▸ different)

variable {thread : τ} {running : Running κ π}

theorem sectionLeft_held (holder : system.holder = some thread)
    (there : system.threads thread = some running) :
    sectionLeft left system = left running.point system.shared := by
  simp only [sectionLeft, holder, there, Option.map_some, Option.getD_some]

theorem sectionLeft_free (free : system.holder = none) : sectionLeft left system = 0 := by
  simp only [sectionLeft, free]

variable {running' : Running κ π}

/-- A step of the holder within its section. -/
theorem inside_smaller (there : system.threads thread = some running)
    (threads : after.threads = Function.update system.threads thread (some running'))
    (holder : system.holder = some thread) (holder' : after.holder = some thread)
    (inside : m.phase running.point = .inside) (inside' : m.phase running'.point = .inside)
    (less : left running'.point after.shared < left running.point system.shared) :
    remaining m left childLeft after < remaining m left childLeft system := by
  have there' : after.threads thread = some running' := by
    rw [threads, Function.update_self]
  refine remaining_lt_iff.mpr (.inr ⟨?_, .inl ?_⟩)
  · have moved := phaseCount_update there .before (some running') threads (m := m)
    rwa [inPhase_other inside (by decide), inPhase_other inside' (by decide)] at moved
  · rwa [sectionLeft_held holder' there', sectionLeft_held holder there]

/-- The lock is taken. -/
theorem lock_smaller (there : system.threads thread = some running)
    (threads : after.threads = Function.update system.threads thread (some running'))
    (before : m.phase running.point = .before) (inside : m.phase running'.point = .inside) :
    remaining m left childLeft after < remaining m left childLeft system := by
  refine remaining_lt_iff.mpr (.inl ?_)
  have moved := phaseCount_update there .before (some running') threads (m := m)
  rw [inPhase_same before, inPhase_other inside (by decide)] at moved
  omega

/-- The lock is given back. -/
theorem unlock_smaller (there : system.threads thread = some running)
    (threads : after.threads = Function.update system.threads thread (some running'))
    (holder : system.holder = some thread) (free : after.holder = none)
    (inside : m.phase running.point = .inside) (behind : m.phase running'.point = .after)
    (some : 0 < left running.point system.shared) :
    remaining m left childLeft after < remaining m left childLeft system := by
  refine remaining_lt_iff.mpr (.inr ⟨?_, .inl ?_⟩)
  · have moved := phaseCount_update there .before (.some running') threads (m := m)
    rwa [inPhase_other inside (by decide), inPhase_other behind (by decide)] at moved
  · rwa [sectionLeft_free free, sectionLeft_held holder there]

/-- The holder's section does not see another thread leave. -/
theorem sectionLeft_leaves (kept : Invariant m initial system outcomes state)
    (there : system.threads thread = some running) (behind : m.phase running.point = .after)
    (threads : after.threads = Function.update system.threads thread none)
    (holder : after.holder = system.holder) (shared : after.shared = system.shared) :
    sectionLeft left after = sectionLeft left system := by
  cases held : system.holder with
  | none => rw [sectionLeft_free held, sectionLeft_free (holder.trans held)]
  | some inside =>
    obtain ⟨running', _, there', phase, _⟩ := kept.held inside held
    have different : inside ≠ thread := by
      rintro rfl
      cases there.symm.trans there'
      rw [behind] at phase
      cases phase
    have stays : after.threads inside = some running' := by
      rw [threads, Function.update_of_ne different, there']
    rw [sectionLeft_held (holder.trans held) stays, sectionLeft_held held there', shared]

/-- A call returns. -/
theorem ret_smaller (there : system.threads thread = some running)
    (threads : after.threads = Function.update system.threads thread none)
    (same : sectionLeft left after = sectionLeft left system)
    (children : after.children = system.children) (behind : m.phase running.point = .after) :
    remaining m left childLeft after < remaining m left childLeft system := by
  refine remaining_lt_iff.mpr (.inr ⟨?_, .inr ⟨same, ?_⟩⟩)
  · have moved := phaseCount_update there .before none threads (m := m)
    rwa [inPhase_other behind (by decide)] at moved
  · have moved := phaseCount_update there .after none threads (m := m)
    rw [inPhase_same behind, inPhase] at moved
    rw [childrenLeft, childrenLeft, children]
    omega

/-- A child takes a step. -/
theorem child_smaller (bounded : Bounded m safe left childLeft) {index : ℕ} {entry : ℕ × χ}
    (there : system.children[index]? = some entry) {child : χ}
    (stepped : m.childStep entry.2 = some child) :
    remaining m left childLeft
        { system with children := system.children.set index (entry.1, child) } <
      remaining m left childLeft system := by
  obtain ⟨inside, same⟩ := List.getElem?_eq_some_iff.mp there
  have less := bounded.child stepped
  have split : system.children =
      system.children.take index ++ entry :: system.children.drop (index + 1) := by
    rw [← same, List.cons_getElem_drop_succ, List.take_append_drop]
  refine remaining_lt_iff.mpr (.inr ⟨rfl, .inr ⟨rfl, Nat.add_lt_add_left ?_ _⟩⟩)
  rw [childrenLeft, childrenLeft, List.set_eq_take_append_cons_drop, if_pos inside]
  conv_rhs => rw [split]
  simp only [List.map_append, List.map_cons, List.sum_append, List.sum_cons]
  omega

/-- **Every step brings the system closer to its end.** -/
theorem going_smaller (bounded : Bounded m safe left childLeft)
    (kept : Invariant m initial system outcomes state) (allSafe : AllSafe safe system)
    (going : Going m after system) :
    remaining m left childLeft after < remaining m left childLeft system := by
  obtain ⟨event, isStep, fired⟩ := going
  cases event with
  | call thread call => exact isStep.elim
  | child index =>
    obtain ⟨entry, there, mapped⟩ := Option.bind_eq_some_iff.mp fired
    obtain ⟨child, stepped, same⟩ := Option.map_eq_some_iff.mp mapped
    subst same
    exact child_smaller bounded there stepped
  | advance thread forks =>
    obtain ⟨running, there, advanced⟩ := Option.bind_eq_some_iff.mp fired
    have here := allSafe thread running there
    have holds : m.phase running.point = .inside → system.holder = some thread := fun inside =>
      (fits_of_inside inside).mp (kept.threads thread running there)
    rw [advance] at advanced
    split at advanced
    · rename_i next instr
      split at advanced
      · cases advanced
        obtain ⟨before, inside⟩ := phase_of_lock instr
        exact lock_smaller there rfl before inside
      · cases advanced
    · rename_i action instr
      obtain ⟨inside, inside'⟩ := phase_of_access instr
      obtain ⟨shared, next, done, _, less⟩ := bounded.access instr here system.shared
      rw [done] at advanced
      cases advanced
      exact inside_smaller there rfl (holds inside) (holds inside) inside (inside' _ _ _ done) less
    · rename_i copy next instr
      obtain ⟨inside, inside'⟩ := phase_of_fork instr
      cases advanced
      exact inside_smaller there rfl (holds inside) (holds inside) inside (inside' forks)
        ((bounded.fork instr here forks).2 _)
    · rename_i next instr
      obtain ⟨inside, behind⟩ := phase_of_unlock instr
      cases advanced
      exact unlock_smaller there rfl (holds inside) rfl inside behind
        ((bounded.unlock instr here).2 _)
    · rename_i result instr
      have behind := phase_of_ret instr
      cases advanced
      exact ret_smaller there rfl (sectionLeft_leaves kept there behind rfl rfl rfl) rfl behind

end Decrease

/-! ### Whole runs -/

section Runs

variable (m safe initial)

/-- What every reachable system satisfies, when only safe calls are made. -/
structure Sound (system : System κ σ π ρ χ τ) : Prop where
  kept : ∃ outcomes state, Invariant m initial system outcomes state
  allSafe : AllSafe safe system

end Runs

theorem fire_sound (bounded : Bounded m safe left childLeft) (sound : Sound m safe initial system)
    {event : Event κ τ}
    (starts : ∀ thread call, event = .call thread call → safe (m.start call))
    (fired : fire m event system = some after) : Sound m safe initial after := by
  obtain ⟨outcomes, state, kept⟩ := sound.kept
  exact ⟨fire_keeps kept fired, fire_safe bounded sound.allSafe starts fired⟩

theorem interleave_sound (bounded : Bounded m safe left childLeft) {events : List (Event κ τ)}
    (sound : Sound m safe initial system)
    (starts : ∀ thread call, Event.call thread call ∈ events → safe (m.start call))
    (ran : interleave m events system = some after) : Sound m safe initial after := by
  induction events generalizing system with
  | nil =>
    cases ran
    exact sound
  | cons event events ih =>
    obtain ⟨middle, fired, later⟩ := Option.bind_eq_some_iff.mp ran
    have first := fire_sound bounded sound (fun thread call same =>
      starts thread call (same ▸ List.mem_cons_self)) fired
    exact ih first (fun thread call member => starts thread call (List.mem_cons_of_mem _ member))
      later

/-- A schedule made longer. -/
theorem interleave_append (earlier later : List (Event κ τ)) (system : System κ σ π ρ χ τ) :
    interleave m (earlier ++ later) system =
      (interleave m earlier system).bind (interleave m later) := by
  induction earlier generalizing system with
  | nil => rfl
  | cons event earlier ih =>
    rw [List.cons_append, interleave, interleave, Option.bind_assoc]
    exact congrArg _ (funext ih)

theorem initially_sound : Sound m safe initial (initially (τ := τ) initial) :=
  ⟨⟨[], initial, initially_invariant m initial⟩, nofun⟩

/-- **No schedule goes on for ever.** -/
theorem sound_acc [Fintype τ] (bounded : Bounded m safe left childLeft)
    (sound : Sound m safe initial system) : Acc (Going m) system := by
  induction measure : remaining m left childLeft system using WellFoundedLT.induction
    generalizing system with
  | _ bound ih =>
    refine Acc.intro system fun after going => ?_
    obtain ⟨outcomes, state, kept⟩ := sound.kept
    have less := going_smaller bounded kept sound.allSafe going
    obtain ⟨event, isStep, fired⟩ := going
    have noCall : ∀ thread call, event = .call thread call → safe (m.start call) := by
      rintro thread call rfl
      exact isStep.elim
    exact ih _ (measure ▸ less) (fire_sound bounded sound noCall fired) rfl

/-- **A system that can go no further** has no thread within a call. -/
theorem settled_idle (bounded : Bounded m safe left childLeft)
    (sound : Sound m safe initial system) (settled : Settled m system) (thread : τ) :
    system.threads thread = none := by
  obtain ⟨outcomes, state, kept⟩ := sound.kept
  by_contra busy
  obtain ⟨running, there⟩ := Option.ne_none_iff_exists'.mp busy
  obtain ⟨mover, moves⟩ := busy_advances bounded kept sound.allSafe there
  rw [settled (.advance mover true) trivial] at moves
  cases moves

/-- Its children have come to their ends. -/
theorem settled_children (settled : Settled m system) :
    ∀ entry ∈ system.children, m.childStep entry.2 = none := by
  intro entry member
  obtain ⟨index, there⟩ := List.mem_iff_getElem?.mp member
  have stuck := settled (.child index) trivial
  rw [fire, there, Option.bind_some, Option.map_eq_none_iff] at stuck
  exact stuck

/-! ### Every call returns once -/

section Counts

variable [Fintype τ]

/-- A thread within a call, counted. -/
def within (running : Option (Running κ π)) : ℕ := if running.isSome then 1 else 0

/-- The calls made: those still going on and those that have returned. -/
def callsMade (system : System κ σ π ρ χ τ) : ℕ :=
  (∑ thread, within (system.threads thread)) + system.returned.length

/-- A thread within a call stays within it. -/
theorem callsMade_stays {thread : τ} {running running' : Running κ π}
    (there : system.threads thread = some running)
    (threads : after.threads = Function.update system.threads thread (some running'))
    (returned : after.returned = system.returned) : callsMade after = callsMade system := by
  have moved := Interleaving.sum_update (fun _ => within) system.threads thread (some running')
  rw [there] at moved
  rw [callsMade, callsMade, threads, returned]
  exact congrArg (· + system.returned.length) (Nat.add_right_cancel moved)

theorem advance_callsMade {thread : τ} {forks : Bool} {running : Running κ π}
    (there : system.threads thread = some running)
    (advanced : advance m thread forks running system = some after) :
    callsMade after = callsMade system := by
  rw [advance] at advanced
  split at advanced
  · split at advanced
    · cases advanced
      exact callsMade_stays there rfl rfl
    · cases advanced
  · split at advanced
    · cases advanced
    · cases advanced
      exact callsMade_stays there rfl rfl
  · cases advanced
    exact callsMade_stays there rfl rfl
  · cases advanced
    exact callsMade_stays there rfl rfl
  · rename_i result instr
    cases advanced
    have moved := Interleaving.sum_update (fun _ => within) system.threads thread none
    have one : within (some running) = 1 := rfl
    have none : within (none : Option (Running κ π)) = 0 := rfl
    rw [there, one, none] at moved
    rw [callsMade, callsMade, List.length_append, List.length_singleton]
    dsimp only
    omega

theorem fire_callsMade {event : Event κ τ} (fired : fire m event system = some after) :
    callsMade after = callsMade system + if event.isCall then 1 else 0 := by
  cases event with
  | call thread call =>
    rw [fire] at fired
    split at fired
    · cases fired
    · rename_i idle
      cases fired
      have moved := Interleaving.sum_update (fun _ => within) system.threads thread
        (some ⟨call, m.start call, 0⟩)
      have one : within (some (⟨call, m.start call, 0⟩ : Running κ π)) = 1 := rfl
      have none : within (none : Option (Running κ π)) = 0 := rfl
      rw [idle, one, none] at moved
      rw [callsMade, callsMade, Event.isCall, if_pos rfl]
      dsimp only
      omega
  | advance thread forks =>
    obtain ⟨running, there, advanced⟩ := Option.bind_eq_some_iff.mp fired
    exact advance_callsMade there advanced
  | child index =>
    obtain ⟨entry, _, mapped⟩ := Option.bind_eq_some_iff.mp fired
    obtain ⟨child, _, same⟩ := Option.map_eq_some_iff.mp mapped
    subst same
    rfl

theorem interleave_callsMade {events : List (Event κ τ)}
    (ran : interleave m events system = some after) :
    callsMade after = callsMade system + events.countP Event.isCall := by
  induction events generalizing system with
  | nil =>
    cases ran
    rfl
  | cons event events ih =>
    obtain ⟨middle, fired, later⟩ := Option.bind_eq_some_iff.mp ran
    rw [ih later, fire_callsMade fired, List.countP_cons]
    omega

/-- **A system that can go no further** has returned as often as it was called. -/
theorem settled_returned (bounded : Bounded m safe left childLeft)
    (sound : Sound m safe initial system) (settled : Settled m system) {events : List (Event κ τ)}
    (ran : interleave m events (initially initial) = some system) :
    system.returned.length = events.countP Event.isCall := by
  have made := interleave_callsMade ran
  have idle : ∀ thread, within (system.threads thread) = 0 := fun thread => by
    rw [settled_idle bounded sound settled thread]
    rfl
  have none : callsMade (initially initial : System κ σ π ρ χ τ) = 0 := by
    show (∑ _ : τ, 0) + 0 = 0
    rw [Finset.sum_const_zero]
  rwa [none, callsMade, Finset.sum_eq_zero fun thread _ => idle thread, Nat.zero_add,
    Nat.zero_add] at made

end Counts

end LockedCalls
