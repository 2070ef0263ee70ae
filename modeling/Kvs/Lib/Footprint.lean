/-
**Commands that touch different keys.**

A command is executed on a shared state and leaves a report. `view` is what a state holds at a key,
`log` what a report says about a key, and `touches` the keys of a command. `Local` is the frame rule
of such commands: a command changes nothing at the keys it does not touch and says nothing about
them, and what it does at its own keys is decided by what the state holds there.

Two lists of commands whose keys are apart may then be interleaved at will. `runAll_projects`: each
list reports in the interleaving what it reports alone, and leaves at its keys what it leaves alone.
`order_irrelevant` compares two interleavings of the same lists.
-/

import Mathlib

namespace Footprint

variable {σ γ ρ κ ω α ε : Type}

/-- Execute the commands of a list in order. -/
def runAll (exec : γ → σ → Except ε (ρ × σ)) : List γ → σ → Except ε (List ρ × σ)
  | [], state => .ok ([], state)
  | command :: commands, state => do
    let (report, state) ← exec command state
    let (reports, state) ← runAll exec commands state
    return (report :: reports, state)

/-- The frame rule of commands. -/
structure Local (view : σ → κ → ω) (log : ρ → κ → List α) (touches : γ → Set κ)
    (exec : γ → σ → Except ε (ρ × σ)) : Prop where
  total : ∀ command state, ∃ report after, exec command state = .ok (report, after)
  frame : ∀ {command state report after}, exec command state = .ok (report, after) →
    Set.EqOn (view after) (view state) (touches command)ᶜ
  silent : ∀ {command state report after}, exec command state = .ok (report, after) →
    ∀ key ∉ touches command, log report key = []
  same : ∀ {command first second report report' after after'},
    Set.EqOn (view first) (view second) (touches command) →
    exec command first = .ok (report, after) → exec command second = .ok (report', after') →
    report = report' ∧ Set.EqOn (view after) (view after') (touches command)

/-- What a list of reports says about a key. -/
def logAll (log : ρ → κ → List α) (reports : List ρ) (key : κ) : List α :=
  reports.flatMap (log · key)

/-- The keys of a list of commands. -/
def touchesAny (touches : γ → Set κ) (commands : List γ) : Set κ :=
  {key | ∃ command ∈ commands, key ∈ touches command}

theorem logAll_cons (log : ρ → κ → List α) (report : ρ) (reports : List ρ) (key : κ) :
    logAll log (report :: reports) key = log report key ++ logAll log reports key :=
  List.flatMap_cons

theorem logAll_cons_nil {log : ρ → κ → List α} {report : ρ} {reports : List ρ} {key : κ} :
    logAll log (report :: reports) key = [] ↔
      log report key = [] ∧ logAll log reports key = [] := by
  rw [logAll_cons, List.append_eq_nil_iff]

theorem mem_touchesAny_cons {touches : γ → Set κ} {command : γ} {commands : List γ} {key : κ} :
    key ∈ touchesAny touches (command :: commands) ↔
      key ∈ touches command ∨ key ∈ touchesAny touches commands := by
  simp [touchesAny]

theorem not_mem_touchesAny_cons {touches : γ → Set κ} {command : γ} {commands : List γ} {key : κ} :
    key ∉ touchesAny touches (command :: commands) ↔
      key ∉ touches command ∧ key ∉ touchesAny touches commands := by
  rw [mem_touchesAny_cons, not_or]

theorem touchesAny_cons_subset {touches : γ → Set κ} {command : γ} {commands : List γ}
    {keys : Set κ} :
    touchesAny touches (command :: commands) ⊆ keys ↔
      touches command ⊆ keys ∧ touchesAny touches commands ⊆ keys := by
  constructor
  · intro inside
    exact ⟨fun key member => inside (mem_touchesAny_cons.mpr (.inl member)),
      fun key member => inside (mem_touchesAny_cons.mpr (.inr member))⟩
  · rintro ⟨here, there⟩ key member
    rcases mem_touchesAny_cons.mp member with member | member
    · exact here member
    · exact there member

section Runs

variable {exec : γ → σ → Except ε (ρ × σ)}

theorem runAll_cons {command : γ} {commands : List γ} {state middle after : σ} {report : ρ}
    {reports : List ρ} (first : exec command state = .ok (report, middle))
    (later : runAll exec commands middle = .ok (reports, after)) :
    runAll exec (command :: commands) state = .ok (report :: reports, after) := by
  simp [runAll, first, later, bind, Except.bind, pure, Except.pure]

/-- A run of a list is one of its head and one of its tail. -/
theorem runAll_cons_inv {command : γ} {commands : List γ} {state after : σ} {reports : List ρ}
    (run : runAll exec (command :: commands) state = .ok (reports, after)) :
    ∃ report middle rest, exec command state = .ok (report, middle) ∧
      runAll exec commands middle = .ok (rest, after) ∧ reports = report :: rest := by
  cases first : exec command state with
  | error fault => simp [runAll, first, bind, Except.bind] at run
  | ok outcome =>
    obtain ⟨report, middle⟩ := outcome
    cases later : runAll exec commands middle with
    | error fault => simp [runAll, first, later, bind, Except.bind] at run
    | ok rest =>
      obtain ⟨rest, last⟩ := rest
      simp only [runAll, first, later, bind, Except.bind] at run
      cases run
      exact ⟨report, middle, rest, rfl, later, rfl⟩

end Runs

variable {view : σ → κ → ω} {log : ρ → κ → List α} {touches : γ → Set κ}
  {exec : γ → σ → Except ε (ρ × σ)}

namespace Local

variable (isLocal : Local view log touches exec)

include isLocal

/-- **One command on two states** that hold the same at its keys. -/
theorem execute_both {command : γ} {first second : σ} {keys : Set κ}
    (inside : touches command ⊆ keys) (agree : Set.EqOn (view first) (view second) keys) :
    ∃ report after after', exec command first = .ok (report, after) ∧
      exec command second = .ok (report, after') ∧ Set.EqOn (view after) (view after') keys := by
  obtain ⟨report, after, executed⟩ := isLocal.total command first
  obtain ⟨report', after', executed'⟩ := isLocal.total command second
  obtain ⟨rfl, agree'⟩ := isLocal.same (agree.mono inside) executed executed'
  refine ⟨report, after, after', executed, executed', fun key member => ?_⟩
  by_cases touched : key ∈ touches command
  · exact agree' touched
  · rw [isLocal.frame executed touched, isLocal.frame executed' touched]
    exact agree member

/-! ### Lists of commands -/

theorem runAll_total (commands : List γ) (state : σ) :
    ∃ reports after, runAll exec commands state = .ok (reports, after) := by
  induction commands generalizing state with
  | nil => exact ⟨[], state, rfl⟩
  | cons command commands ih =>
    obtain ⟨report, middle, executed⟩ := isLocal.total command state
    obtain ⟨reports, after, run⟩ := ih middle
    exact ⟨report :: reports, after, runAll_cons executed run⟩

theorem runAll_frame {commands : List γ} {state after : σ} {reports : List ρ}
    (run : runAll exec commands state = .ok (reports, after)) :
    Set.EqOn (view after) (view state) (touchesAny touches commands)ᶜ := by
  induction commands generalizing state reports with
  | nil => cases run; exact fun _ _ => rfl
  | cons command commands ih =>
    obtain ⟨report, middle, rest, executed, later, -⟩ := runAll_cons_inv run
    intro key untouched
    obtain ⟨here, there⟩ := not_mem_touchesAny_cons.mp untouched
    rw [ih later there, isLocal.frame executed here]

theorem runAll_silent {commands : List γ} {state after : σ} {reports : List ρ}
    (run : runAll exec commands state = .ok (reports, after)) :
    ∀ key ∉ touchesAny touches commands, logAll log reports key = [] := by
  induction commands generalizing state reports with
  | nil => cases run; exact fun _ _ => rfl
  | cons command commands ih =>
    obtain ⟨report, middle, rest, executed, later, rfl⟩ := runAll_cons_inv run
    intro key untouched
    obtain ⟨here, there⟩ := not_mem_touchesAny_cons.mp untouched
    rw [logAll_cons, isLocal.silent executed key here, ih later key there, List.append_nil]

/-- A list of commands on two states that hold the same at its keys. -/
theorem runAll_both {commands : List γ} {first second : σ} {keys : Set κ}
    (inside : touchesAny touches commands ⊆ keys)
    (agree : Set.EqOn (view first) (view second) keys) :
    ∃ reports after after', runAll exec commands first = .ok (reports, after) ∧
      runAll exec commands second = .ok (reports, after') ∧
      Set.EqOn (view after) (view after') keys := by
  induction commands generalizing first second with
  | nil => exact ⟨[], first, second, rfl, rfl, agree⟩
  | cons command commands ih =>
    obtain ⟨here, there⟩ := touchesAny_cons_subset.mp inside
    obtain ⟨report, middle, middle', executed, executed', agree⟩ :=
      isLocal.execute_both here agree
    obtain ⟨reports, after, after', run, run', agree⟩ := ih there agree
    exact ⟨report :: reports, after, after', runAll_cons executed run, runAll_cons executed' run',
      agree⟩

/-- **The frame rule of lists of commands.** -/
theorem runAll : Local view (logAll log) (touchesAny touches) (runAll exec) where
  total := isLocal.runAll_total
  frame := isLocal.runAll_frame
  silent := isLocal.runAll_silent
  same agree run run' := by
    obtain ⟨reports, after, after', again, again', agree⟩ :=
      isLocal.runAll_both (Set.Subset.refl _) agree
    cases run.symm.trans again
    cases run'.symm.trans again'
    exact ⟨rfl, agree⟩

end Local

/-! ### Interleaving two lists -/

/-- The members of the first list, in their order. -/
def lefts {β : Type} (tagged : List (β ⊕ β)) : List β := tagged.filterMap Sum.getLeft?

/-- The members of the second list, in their order. -/
def rights {β : Type} (tagged : List (β ⊕ β)) : List β := tagged.filterMap Sum.getRight?

/-- Execute a command of either list; its report stays with its list. -/
def execTagged (exec : γ → σ → Except ε (ρ × σ)) : γ ⊕ γ → σ → Except ε ((ρ ⊕ ρ) × σ)
  | .inl command, state => (exec command state).map fun outcome => (.inl outcome.1, outcome.2)
  | .inr command, state => (exec command state).map fun outcome => (.inr outcome.1, outcome.2)

/-- What a report of either list says about a key. -/
def logTagged (log : ρ → κ → List α) (report : ρ ⊕ ρ) (key : κ) : List α :=
  report.elim (log · key) (log · key)

/-- The first list keeps to the keys, the second one stays away from them. -/
structure Apart (touches : γ → Set κ) (mine : Set κ) (tagged : List (γ ⊕ γ)) : Prop where
  left : touchesAny touches (lefts tagged) ⊆ mine
  right : touchesAny touches (rights tagged) ⊆ mineᶜ

section Interleaving

variable {mine : Set κ} {tagged : List (γ ⊕ γ)}

/-- **Each list does in an interleaving what it does alone.** -/
theorem runAll_projects (isLocal : Local view log touches exec) (apart : Apart touches mine tagged)
    {state leftState rightState : σ} (agreeLeft : Set.EqOn (view state) (view leftState) mine)
    (agreeRight : Set.EqOn (view state) (view rightState) mineᶜ) :
    ∃ reports after leftAfter rightAfter,
      runAll (execTagged exec) tagged state = .ok (reports, after) ∧
      runAll exec (lefts tagged) leftState = .ok (lefts reports, leftAfter) ∧
      runAll exec (rights tagged) rightState = .ok (rights reports, rightAfter) ∧
      Set.EqOn (view after) (view leftAfter) mine ∧
      Set.EqOn (view after) (view rightAfter) mineᶜ := by
  induction tagged generalizing state leftState rightState with
  | nil => exact ⟨[], state, leftState, rightState, rfl, rfl, rfl, agreeLeft, agreeRight⟩
  | cons command tagged ih =>
    cases command with
    | inl command =>
      obtain ⟨here, there⟩ := touchesAny_cons_subset.mp apart.left
      obtain ⟨report, middle, leftMiddle, executed, executedLeft, agreeLeft⟩ :=
        isLocal.execute_both here agreeLeft
      have framed : Set.EqOn (view middle) (view state) mineᶜ :=
        (isLocal.frame executed).mono (Set.compl_subset_compl.mpr here)
      obtain ⟨reports, after, leftAfter, rightAfter, run, runLeft, runRight, agree⟩ :=
        ih ⟨there, apart.right⟩ agreeLeft (framed.trans agreeRight)
      refine ⟨.inl report :: reports, after, leftAfter, rightAfter, ?_,
        runAll_cons executedLeft runLeft, runRight, agree⟩
      exact runAll_cons (by rw [execTagged, executed]; rfl) run
    | inr command =>
      obtain ⟨here, there⟩ := touchesAny_cons_subset.mp apart.right
      obtain ⟨report, middle, rightMiddle, executed, executedRight, agreeRight⟩ :=
        isLocal.execute_both here agreeRight
      have framed : Set.EqOn (view middle) (view state) mine :=
        (isLocal.frame executed).mono (Set.subset_compl_comm.mp here)
      obtain ⟨reports, after, leftAfter, rightAfter, run, runLeft, runRight, agree⟩ :=
        ih ⟨apart.left, there⟩ (framed.trans agreeLeft) agreeRight
      refine ⟨.inr report :: reports, after, leftAfter, rightAfter, ?_, runLeft,
        runAll_cons executedRight runRight, agree⟩
      exact runAll_cons (by rw [execTagged, executed]; rfl) run

/-- Only the first list speaks of its keys. -/
theorem logAll_of_rights_silent {reports : List (ρ ⊕ ρ)} {key : κ}
    (silent : logAll log (rights reports) key = []) :
    logAll (logTagged log) reports key = logAll log (lefts reports) key := by
  induction reports with
  | nil => rfl
  | cons report reports ih =>
    cases report with
    | inl report => exact congrArg (log report key ++ ·) (ih silent)
    | inr report =>
      obtain ⟨here, there⟩ := logAll_cons_nil.mp silent
      show log report key ++ logAll (logTagged log) reports key = logAll log (lefts reports) key
      rw [here, List.nil_append, ih there]

/-- Only the second list speaks of the other keys. -/
theorem logAll_of_lefts_silent {reports : List (ρ ⊕ ρ)} {key : κ}
    (silent : logAll log (lefts reports) key = []) :
    logAll (logTagged log) reports key = logAll log (rights reports) key := by
  induction reports with
  | nil => rfl
  | cons report reports ih =>
    cases report with
    | inl report =>
      obtain ⟨here, there⟩ := logAll_cons_nil.mp silent
      show log report key ++ logAll (logTagged log) reports key = logAll log (rights reports) key
      rw [here, List.nil_append, ih there]
    | inr report => exact congrArg (log report key ++ ·) (ih silent)

/-- **The order does not matter.** Two interleavings of the same lists give the same reports, the
same log at every key and leave the same at every key. -/
theorem order_irrelevant (isLocal : Local view log touches exec) {other : List (γ ⊕ γ)}
    (apart : Apart touches mine tagged) (sameLefts : lefts other = lefts tagged)
    (sameRights : rights other = rights tagged) (state : σ) :
    ∃ reports after reports' after',
      runAll (execTagged exec) tagged state = .ok (reports, after) ∧
      runAll (execTagged exec) other state = .ok (reports', after') ∧
      lefts reports = lefts reports' ∧ rights reports = rights reports' ∧
      (∀ key, logAll (logTagged log) reports key = logAll (logTagged log) reports' key) ∧
      view after = view after' := by
  have apart' : Apart touches mine other := by
    refine ⟨?_, ?_⟩
    · rw [sameLefts]; exact apart.left
    · rw [sameRights]; exact apart.right
  obtain ⟨reports, after, leftAfter, rightAfter, run, runLeft, runRight, inside, outside⟩ :=
    runAll_projects isLocal apart (Set.eqOn_refl (view state) _) (Set.eqOn_refl (view state) _)
  obtain ⟨reports', after', leftAfter', rightAfter', run', runLeft', runRight', inside',
      outside'⟩ :=
    runAll_projects isLocal apart' (Set.eqOn_refl (view state) _) (Set.eqOn_refl (view state) _)
  rw [sameLefts, runLeft] at runLeft'
  rw [sameRights, runRight] at runRight'
  obtain ⟨lefts_eq, rfl⟩ := Prod.mk.inj (Except.ok.inj runLeft')
  obtain ⟨rights_eq, rfl⟩ := Prod.mk.inj (Except.ok.inj runRight')
  refine ⟨reports, after, reports', after', run, run', lefts_eq, rights_eq, fun key => ?_, ?_⟩
  · by_cases member : key ∈ mine
    · have silent : logAll log (rights reports) key = [] :=
        isLocal.runAll_silent runRight key fun touched => apart.right touched member
      rw [logAll_of_rights_silent silent, logAll_of_rights_silent (rights_eq ▸ silent), lefts_eq]
    · have silent : logAll log (lefts reports) key = [] :=
        isLocal.runAll_silent runLeft key fun touched => member (apart.left touched)
      rw [logAll_of_lefts_silent silent, logAll_of_lefts_silent (lefts_eq ▸ silent), rights_eq]
  · funext key
    by_cases member : key ∈ mine
    · exact (inside member).trans (inside' member).symm
    · exact (outside member).trans (outside' member).symm

end Interleaving

end Footprint
