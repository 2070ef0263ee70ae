/-
**Everybody sees the latest write.**

`Linearize` puts the operations in the order in which they took the lock and lets each answer from
the ledger of its turn. Here the ledger is taken out of the picture. A key is bound to a value when
the last operation that concerns the key wrote it (`Latest`), and `replies_latest` says that this is
what every reply and every backup file goes by, in every interleaving from the server's start.
-/

import Kvs.Concurrency.Linearize

namespace Kvs.Server

open LockedCalls

/-! ### The last operation on a key -/

/-- The operation writes the key or deletes it. -/
def Operation.Concerns (key : CStr) : Operation → Prop
  | write pairs => key ∈ pairs.map Prod.fst
  | delete keys => key ∈ keys
  | _ => False

/-- The operation writes the value, with the last of its pairs of that key. -/
def Operation.Binds (key value : CStr) (operation : Operation) : Prop :=
  ∃ before after, operation = .write (before ++ (key, value) :: after) ∧
    key ∉ after.map Prod.fst

/-- The last operation that concerns the key wrote the value. -/
def Latest (key value : CStr) (operations : List Operation) : Prop :=
  ∃ earlier operation later, operations = earlier ++ operation :: later ∧
    operation.Binds key value ∧ ∀ other ∈ later, ¬ other.Concerns key

section Lookup

variable {key value : CStr} {operation : Operation}

theorem Operation.Binds.concerns (binds : operation.Binds key value) : operation.Concerns key := by
  obtain ⟨before, after, rfl, _⟩ := binds
  show key ∈ (before ++ (key, value) :: after).map Prod.fst
  rw [List.map_append]
  exact List.mem_append_right _ List.mem_cons_self

/-- One operation more. -/
theorem latest_concat {operations : List Operation} : Latest key value (operations ++ [operation]) ↔
    operation.Binds key value ∨ ¬ operation.Concerns key ∧ Latest key value operations := by
  constructor
  · rintro ⟨earlier, last, later, same, binds, others⟩
    rcases List.eq_nil_or_concat later with rfl | ⟨later, final, rfl⟩
    · obtain ⟨-, equal⟩ := List.append_inj' same rfl
      cases equal
      exact Or.inl binds
    · rw [List.concat_eq_append, ← List.cons_append, ← List.append_assoc] at same
      obtain ⟨rest, equal⟩ := List.append_inj' same rfl
      cases equal
      rw [List.concat_eq_append, List.forall_mem_append, List.forall_mem_singleton] at others
      exact Or.inr ⟨others.2, earlier, last, later, rest, binds, others.1⟩
  · rintro (binds | ⟨other, earlier, last, later, rfl, binds, others⟩)
    · exact ⟨operations, operation, [], rfl, binds, fun _ member => absurd member List.not_mem_nil⟩
    · refine ⟨earlier, last, later ++ [operation], ?_, binds, ?_⟩
      · rw [List.append_assoc, List.cons_append]
      · exact List.forall_mem_append.mpr ⟨others, List.forall_mem_singleton.mpr other⟩

/-- A key among the pairs has a last one. -/
theorem exists_last {pairs : List (CStr × CStr)} (present : key ∈ pairs.map Prod.fst) :
    ∃ before value after, pairs = before ++ (key, value) :: after ∧ key ∉ after.map Prod.fst := by
  induction pairs with
  | nil => exact absurd present List.not_mem_nil
  | cons pair pairs ih =>
    by_cases later : key ∈ pairs.map Prod.fst
    · obtain ⟨before, value, after, rfl, last⟩ := ih later
      exact ⟨pair :: before, value, after, rfl, last⟩
    · obtain rfl : key = pair.1 := (List.mem_cons.mp present).resolve_right later
      exact ⟨[], pair.2, pairs, rfl, later⟩

/-! ### What the ledger knows -/

theorem lookup_writeAll_ne {pairs : List (CStr × CStr)} (absent : key ∉ pairs.map Prod.fst)
    (ledger : Ledger) : (ledger.writeAll pairs).lookup key = ledger.lookup key := by
  induction pairs generalizing ledger with
  | nil => rfl
  | cons pair pairs ih =>
    rw [List.map_cons, List.mem_cons, not_or] at absent
    show (Ledger.writeAll pairs _).lookup key = _
    rw [ih absent.2, SplitLedger.lookup_put_ne _ absent.1]

theorem lookup_eraseAll_ne {keys : List CStr} (absent : key ∉ keys) (ledger : Ledger) :
    (ledger.eraseAll keys).lookup key = ledger.lookup key := by
  induction keys generalizing ledger with
  | nil => rfl
  | cons other keys ih =>
    rw [List.mem_cons, not_or] at absent
    show (Ledger.eraseAll keys _).lookup key = _
    rw [ih absent.2, AList.lookup_erase_ne absent.1]

theorem lookup_eraseAll {keys : List CStr} (present : key ∈ keys) (ledger : Ledger) :
    (ledger.eraseAll keys).lookup key = none := by
  induction keys generalizing ledger with
  | nil => exact absurd present List.not_mem_nil
  | cons other keys ih =>
    show (Ledger.eraseAll keys _).lookup key = _
    by_cases later : key ∈ keys
    · exact ih later _
    · obtain rfl : key = other := (List.mem_cons.mp present).resolve_right later
      rw [lookup_eraseAll_ne later, AList.lookup_erase]

theorem Operation.Binds.lookup (binds : operation.Binds key value) (ledger : Ledger) :
    (operation.change ledger).lookup key = some value := by
  obtain ⟨before, after, rfl, last⟩ := binds
  show (Ledger.writeAll (before ++ (key, value) :: after) ledger).lookup key = _
  have stays := lookup_writeAll_ne last (SplitLedger.put key value (ledger.writeAll before))
  rw [SplitLedger.lookup_put] at stays
  rw [Ledger.writeAll, List.foldl_append, List.foldl_cons]
  exact stays

/-- An operation that does not concern a key leaves it. -/
theorem change_lookup_ne (other : ¬ operation.Concerns key) (ledger : Ledger) :
    (operation.change ledger).lookup key = ledger.lookup key := by
  cases operation with
  | write pairs => exact lookup_writeAll_ne other ledger
  | delete keys => exact lookup_eraseAll_ne other ledger
  | _ => rfl

/-- **The step lemma.** What a key is bound to after an operation. -/
theorem change_lookup (operation : Operation) (ledger : Ledger) (key value : CStr) :
    (operation.change ledger).lookup key = some value ↔ operation.Binds key value ∨
      ¬ operation.Concerns key ∧ ledger.lookup key = some value := by
  by_cases concerns : operation.Concerns key
  · have only : operation.Binds key value ∨ ¬ operation.Concerns key ∧
        ledger.lookup key = some value ↔ operation.Binds key value :=
      or_iff_left fun left => left.1 concerns
    rw [only]
    refine ⟨fun bound => ?_, fun binds => binds.lookup ledger⟩
    cases operation with
    | write pairs =>
      obtain ⟨before, found, after, rfl, last⟩ := exists_last concerns
      have binds : Operation.Binds key found (.write (before ++ (key, found) :: after)) :=
        ⟨before, after, rfl, last⟩
      rw [binds.lookup] at bound
      cases bound
      exact binds
    | delete keys =>
      have erased : (Operation.change (.delete keys) ledger).lookup key = none :=
        lookup_eraseAll concerns ledger
      rw [erased] at bound
      cases bound
    | _ => exact concerns.elim
  · rw [change_lookup_ne concerns]
    exact ⟨fun bound => Or.inr ⟨concerns, bound⟩, fun either =>
      (either.resolve_left fun binds => concerns binds.concerns).2⟩

/-- **The run lemma.** From the empty ledger a key is bound to what was written last. -/
theorem lookup_after (operations : List Operation) (key value : CStr) :
    ((∅ : Ledger).after operations).lookup key = some value ↔ Latest key value operations := by
  induction operations using List.reverseRecOn with
  | nil =>
    refine ⟨nofun, ?_⟩
    rintro ⟨earlier, operation, later, same, _⟩
    exact absurd same.symm (List.append_ne_nil_of_right_ne_nil _ (List.cons_ne_nil _ _))
  | append_singleton operations operation ih =>
    rw [latest_concat, ← ih, Ledger.after, List.foldl_append]
    exact change_lookup operation _ key value

end Lookup

/-! ### Interleavings -/

/-- A ledger of what the operations have written last. -/
def Current (operations : List Operation) (ledger : Ledger) : Prop :=
  ∀ key value, ledger.lookup key = some value ↔ Latest key value operations

/-- Every reply and every backup file is about what was written last before its turn. -/
structure UpToDate {τ : Type} (system : KvsSystem τ) : Prop where
  replies : ∀ entry ∈ system.returned, ∃ operation granted ledger,
    system.acquired[entry.1]? = some operation ∧ Current (system.acquired.take entry.1) ledger ∧
      entry.2 = operation.answer granted ledger
  backups : ∀ entry ∈ system.children, entry.2.Exited → ∃ ledger,
    Current (system.acquired.take entry.1) ledger ∧ entry.2.out = ledger.listing
  table : system.holder = none → ∀ key : Key, ∀ value,
    system.shared.table.valueAt key = some value ↔ Latest key.1 value system.acquired

/-- **Everybody sees the latest write**, in every interleaving of any number of threads and backup
children from the server's start. -/
theorem replies_latest {τ : Type} [DecidableEq τ] {events : List (Event Operation τ)}
    {system : KvsSystem τ}
    (alnum : ∀ thread operation, Event.call thread operation ∈ events →
      ∀ key ∈ operation.keys, startsAlnum key)
    (ran : interleave kvsMachine events (initially kvsInit) = some system) : UpToDate system := by
  obtain ⟨outcomes, state, kept⟩ := interleave_serial ran
  have seen := linearized createHashTable_holds
    (interleave_wanted (initially_wanted kvsInit) alnum ran).acquired kept
  refine ⟨fun entry member => ?_, fun entry member exited => ?_, fun free key value => ?_⟩
  · obtain ⟨operation, granted, turn, answer⟩ := seen.returned entry member
    exact ⟨operation, granted, _, turn, lookup_after _, answer⟩
  · exact ⟨_, lookup_after _, (seen.backups entry member exited).2⟩
  · rw [(seen.table free).lookup]
    exact lookup_after system.acquired key.1 value

/-- Two writers of `a` and a reader that calls before either and gets its turn between them. -/
def readBetween : List (Event Operation ℕ) :=
  [.call 2 (.read [keyA.1]), .call 0 (.write [(keyA.1, valueAnna)]),
    .call 1 (.write [(keyA.1, keyA.1)]), .advance 0 true, .advance 0 true, .advance 0 true,
    .advance 2 true, .advance 2 true, .advance 2 true, .advance 2 true, .advance 2 true,
    .advance 1 true, .advance 1 true, .advance 2 true]

theorem replies_latest_readBetween : ∃ system : KvsSystem ℕ,
    interleave kvsMachine readBetween (initially kvsInit) = some system ∧ UpToDate system := by
  obtain ⟨system, ran⟩ := Option.isSome_iff_exists.mp
    (show (interleave kvsMachine readBetween (initially kvsInit)).isSome by decide)
  refine ⟨system, ran, replies_latest ?_ ran⟩
  intro thread operation member
  simp only [readBetween, List.mem_cons, List.not_mem_nil, or_false, reduceCtorEq,
    Event.call.injEq] at member
  rcases member with ⟨-, rfl⟩ | ⟨-, rfl⟩ | ⟨-, rfl⟩ <;> decide

end Kvs.Server
