/-
**Descriptor tables.**

A table says what each descriptor of a process is open on. Opening takes the lowest number that is
free, closing frees a number again, and nobody is told: whoever keeps a number after it was closed
keeps a number that the next open may hand out for something else.

`Honoured` is what a kept number is worth: as long as it is open on something its keeper can use,
that is still what it was kept for. Closing any number keeps this (`Honoured.closed`), and so does
opening (`Honoured.opened`), unless it returns that very number for something its keeper can use.
-/

import Mathlib

namespace DescriptorTable

variable {φ : Type}

/-- What each descriptor is open on, by number; none for a free one. -/
abbrev Table (φ : Type) := List (Option φ)

/-- What a descriptor is open on. -/
def file (table : Table φ) (number : ℕ) : Option φ := (table[number]?).join

/-- The lowest free number. -/
def lowest (table : Table φ) : ℕ := table.findIdx Option.isNone

/-- Open a file at the lowest free number. -/
def opened (table : Table φ) (new : φ) : Table φ :=
  if lowest table < table.length then table.set (lowest table) (some new) else table ++ [some new]

/-- Free a number. -/
def closed (table : Table φ) (number : ℕ) : Table φ := table.set number none

/-! ### Opening and closing -/

variable {table : Table φ} {new : φ} {number other : ℕ}

theorem file_opened_lowest : file (opened table new) (lowest table) = some new := by
  unfold opened file
  split
  · rename_i inside
    simp [inside]
  · rename_i outside
    have atEnd : lowest table = table.length :=
      le_antisymm List.findIdx_le_length (not_lt.mp outside)
    simp [atEnd]

/-- Opening changes no other number. -/
theorem file_opened_of_ne (different : number ≠ lowest table) :
    file (opened table new) number = file table number := by
  unfold opened file
  split
  · rw [List.getElem?_set_ne (Ne.symm different)]
  · rename_i outside
    have atEnd : lowest table = table.length :=
      le_antisymm List.findIdx_le_length (not_lt.mp outside)
    rw [atEnd] at different
    rcases lt_or_gt_of_ne different with inside | past
    · rw [List.getElem?_append_left inside]
    · rw [List.getElem?_eq_none (by simp; omega), List.getElem?_eq_none past.le]

theorem file_closed_self : file (closed table number) number = none := by
  unfold closed file
  by_cases inside : number < table.length
  · simp [inside]
  · rw [List.getElem?_eq_none (by simpa using inside)]
    rfl

/-- Closing changes no other number. -/
theorem file_closed_of_ne (different : other ≠ number) :
    file (closed table number) other = file table other := by
  unfold closed file
  rw [List.getElem?_set_ne (Ne.symm different)]

/-! ### Kept numbers -/

/-- If the number is open on something its keeper can use, that is what it was kept for. -/
def Honoured (usable : φ → Prop) (expected : φ) (number : ℕ) (table : Table φ) : Prop :=
  ∀ found, file table number = some found → usable found → found = expected

variable {usable : φ → Prop} {expected : φ}

theorem Honoured.closed (honoured : Honoured usable expected number table) (other : ℕ) :
    Honoured usable expected number (closed table other) := by
  intro found same use
  by_cases self : number = other
  · subst self
    rw [file_closed_self] at same
    cases same
  · rw [file_closed_of_ne self] at same
    exact honoured found same use

/-- Opening something else keeps it, unless the keeper could use that under its number. -/
theorem Honoured.opened (honoured : Honoured usable expected number table)
    (apart : usable new → lowest table ≠ number) :
    Honoured usable expected number (opened table new) := by
  intro found same use
  by_cases self : number = lowest table
  · subst self
    rw [file_opened_lowest] at same
    cases same
    exact absurd rfl (apart use)
  · rw [file_opened_of_ne self] at same
    exact honoured found same use

/-- The one who opens it keeps the number for what it opened. -/
theorem honoured_opened : Honoured usable new (lowest table) (opened table new) := by
  intro found same _
  rw [file_opened_lowest] at same
  exact (Option.some.inj same).symm

end DescriptorTable
