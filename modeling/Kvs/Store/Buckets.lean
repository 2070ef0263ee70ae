/-
**Which calls stay inside the table.**

Every function of the table makes one access to the array, in the bucket of its key. `Accesses` says
of a call that it makes its accesses for a list of keys, in order, and comes to nothing else that
could fault: it returns when all of the keys have a bucket, and faults with `hash`'s answer `-1`
when one has none.

The calls compose (`accesses_bind`), so each function has its line of keys read off its body.
-/

import Kvs.Store.Spec

namespace Kvs.Server

variable {α β : Type}

/-- The call accesses the table for these keys and does nothing else that faults. -/
def Accesses (keys : List CStr) (call : Except Fault α) : Prop :=
  ((∀ key ∈ keys, startsAlnum key) ∧ ∃ value, call = .ok value) ∨
    ((∃ key ∈ keys, ¬ startsAlnum key) ∧ call = .error (.bucket (-1)))

/-! ### The rules -/

theorem accesses_pure (value : α) : Accesses [] (pure value : Except Fault α) :=
  Or.inl ⟨by simp, value, rfl⟩

/-- One access. -/
theorem accesses_bucket (key : CStr) : Accesses [key] (HashTable.bucket (hash key)) := by
  by_cases alnum : startsAlnum key
  · obtain ⟨index, access, _⟩ := bucket_of_startsAlnum alnum
    exact Or.inl ⟨by simpa using alnum, index, access⟩
  · exact Or.inr ⟨⟨key, List.mem_singleton_self key, alnum⟩, bucket_of_not_startsAlnum alnum⟩

/-- One call after another. -/
theorem accesses_bind {keys later : List CStr} {call : Except Fault α} {next : α → Except Fault β}
    (first : Accesses keys call) (second : ∀ value, Accesses later (next value)) :
    Accesses (keys ++ later) (call >>= next) := by
  rcases first with ⟨alnum, value, returned⟩ | ⟨⟨key, member, other⟩, faulted⟩
  · rcases second value with ⟨alnum', value', returned'⟩ | ⟨⟨key, member, other⟩, faulted⟩
    · refine Or.inl ⟨fun key member => ?_, value', by rw [returned]; exact returned'⟩
      exact (List.mem_append.mp member).elim (alnum key) (alnum' key)
    · refine Or.inr ⟨⟨key, List.mem_append_right _ member, other⟩, ?_⟩
      rw [returned]
      exact faulted
  · refine Or.inr ⟨⟨key, List.mem_append_left _ member, other⟩, ?_⟩
    rw [faulted]
    rfl

/-- A call that is looked at without another access. -/
theorem accesses_map {keys : List CStr} {call : Except Fault α} {next : α → Except Fault β}
    (first : Accesses keys call) (second : ∀ value, Accesses [] (next value)) :
    Accesses keys (call >>= next) := by
  have composed := accesses_bind first second
  rwa [List.append_nil] at composed

/-! ### Reading a call off -/

section Outcomes

variable {keys : List CStr} {call : Except Fault α}

theorem Accesses.ok (accesses : Accesses keys call) (alnum : ∀ key ∈ keys, startsAlnum key) :
    ∃ value, call = .ok value := by
  rcases accesses with ⟨_, returned⟩ | ⟨⟨key, member, other⟩, _⟩
  · exact returned
  · exact absurd (alnum key member) other

theorem Accesses.fault (accesses : Accesses keys call) {key : CStr} (member : key ∈ keys)
    (other : ¬ startsAlnum key) : call = .error (.bucket (-1)) := by
  rcases accesses with ⟨alnum, _⟩ | ⟨_, faulted⟩
  · exact absurd (alnum key member) other
  · exact faulted

/-- **A call stays inside the table** exactly when every key it accesses has a bucket. -/
theorem Accesses.inside_iff (accesses : Accesses keys call) :
    (∀ index, call ≠ .error (.bucket index)) ↔ ∀ key ∈ keys, startsAlnum key := by
  constructor
  · intro inside key member
    by_contra other
    exact inside (-1) (accesses.fault member other)
  · rintro alnum index faulted
    obtain ⟨value, returned⟩ := accesses.ok alnum
    rw [returned] at faulted
    cases faulted

end Outcomes

/-! ### The functions of the table -/

section Table

variable (ht : HashTable) (key value : CStr) (fd : Fd)

theorem accesses_writePair : Accesses [key] (writePair ht key value) :=
  accesses_map (accesses_bucket key) fun _ => by split <;> exact accesses_pure _

theorem accesses_readPair : Accesses [key] (readPair ht key) :=
  accesses_map (accesses_bucket key) fun _ => accesses_pure _

theorem accesses_deletePair : Accesses [key] (deletePair ht key) :=
  accesses_map (accesses_bucket key) fun _ => by split <;> exact accesses_pure _

theorem accesses_writeSubscription : Accesses [key] (writeSubscription ht key fd) :=
  accesses_map (accesses_bucket key) fun _ => by split <;> exact accesses_pure _

theorem accesses_deleteSubscription : Accesses [key] (deleteSubscription ht key fd) :=
  accesses_map (accesses_bucket key) fun _ => by split <;> exact accesses_pure _

end Table

/-! ### The store operations -/

theorem accesses_writePairs (pairs : List (CStr × CStr)) (shared : Shared) :
    Accesses (pairs.map Prod.fst) (writePairs pairs shared) := by
  induction pairs generalizing shared with
  | nil => exact accesses_pure shared
  | cons pair pairs ih => exact accesses_bind (accesses_writePair _ pair.1 pair.2) fun _ => ih _

theorem accesses_kvsWrite (pairs : List (CStr × CStr)) (shared : Shared) :
    Accesses (pairs.map Prod.fst) (kvsWrite pairs shared) :=
  accesses_map (accesses_writePairs pairs shared) fun _ => accesses_pure _

theorem accesses_readEntries (keys : List CStr) (table : HashTable) :
    Accesses keys (readEntries keys table) := by
  induction keys with
  | nil => exact accesses_pure []
  | cons key keys ih =>
    have entry : Accesses [key] (readEntry table key) :=
      accesses_map (accesses_readPair table key) fun _ => by split <;> exact accesses_pure _
    exact accesses_bind entry fun _ => accesses_map ih fun _ => accesses_pure _

theorem accesses_kvsRead (keys : List CStr) (shared : Shared) :
    Accesses keys (kvsRead keys shared) :=
  accesses_map (accesses_readEntries keys shared.table) fun _ => accesses_pure _

theorem accesses_deleteKeys (keys : List CStr) (aux : Bool) (shared : Shared) :
    Accesses keys (deleteKeys keys aux shared) := by
  induction keys generalizing aux shared with
  | nil => exact accesses_pure _
  | cons key keys ih =>
    refine accesses_bind (accesses_deletePair shared.table key) fun answer => ?_
    show Accesses keys (if answer.1 ≠ 0 then _ else _)
    split
    · exact accesses_map (ih true _) fun _ => accesses_pure _
    · exact ih aux _

theorem accesses_kvsDelete (keys : List CStr) (shared : Shared) :
    Accesses keys (kvsDelete keys shared) :=
  accesses_map (accesses_deleteKeys keys false shared) fun _ => accesses_pure _

theorem accesses_subscribe (key : CStr) (fd : Fd) (table : HashTable) :
    Accesses [key] (subscribe key fd table) :=
  accesses_map (accesses_writeSubscription table key fd) fun _ => accesses_pure _

theorem accesses_unsubscribe (key : CStr) (fd : Fd) (table : HashTable) :
    Accesses [key] (unsubscribe key fd table) :=
  accesses_map (accesses_deleteSubscription table key fd) fun _ => accesses_pure _

end Kvs.Server
