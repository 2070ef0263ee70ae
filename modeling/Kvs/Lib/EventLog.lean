/-
**What has happened since.**

A log is a list of events, oldest first. `Since opens closes log` says that some event of the log
opened a state of affairs and no later event closed it. `since_snoc` is the rule every use goes
through: it adds one event at the end of the log. `OpenedAt` also says where in the log the opening
event stands.
-/

import Mathlib

namespace EventLog

variable {α : Type}

/-- An event that opens, with no closing event after it. -/
def Since (opens closes : α → Prop) (log : List α) : Prop :=
  ∃ earlier event later, log = earlier ++ event :: later ∧ opens event ∧
    ∀ other ∈ later, ¬ closes other

variable {opens closes : α → Prop} {log : List α} {event : α}

theorem not_since_nil : ¬ Since opens closes [] := by
  rintro ⟨earlier, event, later, split, _⟩
  cases earlier <;> cases split

/-- **One more event**: it opens itself, or it does not close what was open. -/
theorem since_snoc :
    Since opens closes (log ++ [event]) ↔
      opens event ∨ (¬ closes event ∧ Since opens closes log) := by
  constructor
  · rintro ⟨earlier, opening, later, split, opened, untouched⟩
    rcases List.eq_nil_or_concat later with rfl | ⟨later, last, rfl⟩
    · obtain ⟨_, same⟩ := List.append_inj' split rfl
      rw [(List.cons.inj same).1]
      exact Or.inl opened
    · rw [List.concat_eq_append] at split untouched
      rw [← List.cons_append, ← List.append_assoc] at split
      obtain ⟨same, lastSame⟩ := List.append_inj' split rfl
      obtain rfl := (List.cons.inj lastSame).1
      refine Or.inr ⟨untouched event (by simp), earlier, opening, later, same, opened, ?_⟩
      exact fun other member => untouched other (by simp [member])
  · rintro (opened | ⟨open', earlier, opening, later, rfl, opened, untouched⟩)
    · exact ⟨log, event, [], rfl, opened, by simp⟩
    · refine ⟨earlier, opening, later ++ [event], by simp, opened, fun other member => ?_⟩
      rcases List.mem_append.mp member with member | member
      · exact untouched other member
      · rw [List.mem_singleton.mp member]
        exact open'

/-- More events open, fewer close. -/
theorem Since.mono {opens' closes' : α → Prop} (since : Since opens closes log)
    (opening : ∀ event, opens event → opens' event)
    (closing : ∀ event, closes' event → closes event) : Since opens' closes' log := by
  obtain ⟨earlier, event, later, split, opened, untouched⟩ := since
  exact ⟨earlier, event, later, split, opening event opened,
    fun other member closed => untouched other member (closing other closed)⟩

/-- Some event opened. -/
theorem Since.exists (since : Since opens closes log) : ∃ event ∈ log, opens event := by
  obtain ⟨earlier, event, later, rfl, opened, _⟩ := since
  exact ⟨event, by simp, opened⟩

/-! ### Where it opened -/

/-- The event at this place opens, and none after it closes. -/
structure OpenedAt (opens closes : α → Prop) (log : List α) (place : ℕ) : Prop where
  opened : ∃ event, log[place]? = some event ∧ opens event
  untouched : ∀ later other, place < later → log[later]? = some other → ¬ closes other

variable {place : ℕ}

theorem OpenedAt.lt_length (opened : OpenedAt opens closes log place) : place < log.length := by
  obtain ⟨event, here, _⟩ := opened.opened
  exact (List.getElem?_eq_some_iff.mp here).1

/-- The last event opens. -/
theorem openedAt_last (opened : opens event) :
    OpenedAt opens closes (log ++ [event]) log.length := by
  refine ⟨⟨event, List.getElem?_concat_length, opened⟩, fun later other beyond found => ?_⟩
  rw [List.getElem?_eq_none (by rw [List.length_append, List.length_singleton]; omega)] at found
  cases found

/-- One more event that does not close. -/
theorem OpenedAt.snoc (opened : OpenedAt opens closes log place) (stays : ¬ closes event) :
    OpenedAt opens closes (log ++ [event]) place := by
  have inside := opened.lt_length
  refine ⟨?_, fun later other beyond found => ?_⟩
  · rw [List.getElem?_append_left inside]
    exact opened.opened
  · rcases lt_trichotomy later log.length with earlier | rfl | past
    · rw [List.getElem?_append_left earlier] at found
      exact opened.untouched later other beyond found
    · rw [List.getElem?_concat_length] at found
      cases found
      exact stays
    · rw [List.getElem?_eq_none (by rw [List.length_append, List.length_singleton]; omega)] at found
      cases found

/-- It had opened by any time after. -/
theorem OpenedAt.take (opened : OpenedAt opens closes log place) {time : ℕ} (after : place < time) :
    OpenedAt opens closes (log.take time) place := by
  refine ⟨?_, fun later other beyond found => ?_⟩
  · rw [List.getElem?_take_of_lt after]
    exact opened.opened
  · rw [List.getElem?_take] at found
    split at found
    · exact opened.untouched later other beyond found
    · cases found

/-- What is open has opened somewhere. -/
theorem OpenedAt.since (opened : OpenedAt opens closes log place) : Since opens closes log := by
  obtain ⟨event, here, opens⟩ := opened.opened
  obtain ⟨inside, same⟩ := List.getElem?_eq_some_iff.mp here
  refine ⟨log.take place, event, log.drop (place + 1), ?_, opens, fun other member => ?_⟩
  · rw [← same, List.cons_getElem_drop_succ, List.take_append_drop]
  · obtain ⟨offset, found⟩ := List.mem_iff_getElem?.mp member
    rw [List.getElem?_drop] at found
    exact opened.untouched (place + 1 + offset) other (by omega) found

end EventLog
