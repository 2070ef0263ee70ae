/-
**A ledger kept in buckets.**

A ledger is Mathlib's `AList`: pairs of a key and a value, no key twice. `put` rewrites the value of
a key in its place and enters a new key in front, so that a ledger lists its keys in the order they
were entered, the last one first.

`slice` is the part of a ledger whose keys a partial hash sends to one index. A change at a key is
the same change in the key's bucket, and none in the others: a ledger can be kept as its buckets, as
a chained hash table does.
-/

import Mathlib

set_option linter.unusedSectionVars false

namespace SplitLedger

open List

variable {κ ι : Type} {ν : κ → Type} [DecidableEq κ] [DecidableEq ι]

/-! ### Replacing a value in a list -/

theorem kreplace_cons_self {key : κ} (new old : ν key) (rest : List (Sigma ν)) :
    kreplace key new (⟨key, old⟩ :: rest) = ⟨key, new⟩ :: rest :=
  lookmap_cons_some _ _ (if_pos rfl)

theorem kreplace_cons_of_ne {key : κ} (new : ν key) {entry : Sigma ν} (different : key ≠ entry.1)
    (rest : List (Sigma ν)) :
    kreplace key new (entry :: rest) = entry :: kreplace key new rest :=
  lookmap_cons_none _ _ (if_neg different)

/-- The entries before the key stay as they are. -/
theorem kreplace_append {key : κ} (new old : ν key) {before : List (Sigma ν)}
    (others : key ∉ before.keys) (after : List (Sigma ν)) :
    kreplace key new (before ++ ⟨key, old⟩ :: after) = before ++ ⟨key, new⟩ :: after := by
  induction before with
  | nil => exact kreplace_cons_self new old after
  | cons entry before ih =>
    obtain ⟨different, others⟩ := not_or.mp (mt mem_cons.mpr others)
    rw [cons_append, kreplace_cons_of_ne new different, ih others, cons_append]

theorem kreplace_of_notMem {key : κ} (new : ν key) {entries : List (Sigma ν)}
    (absent : key ∉ entries.keys) : kreplace key new entries = entries :=
  kreplace_of_forall_not key new fun _ member => absent (mem_keys_of_mem member)

theorem dlookup_kreplace {key : κ} (new : ν key) {entries : List (Sigma ν)}
    (present : key ∈ entries.keys) : dlookup key (kreplace key new entries) = some new := by
  induction entries with
  | nil => exact absurd present not_mem_nil
  | cons entry rest ih =>
    obtain ⟨other, value⟩ := entry
    by_cases same : key = other
    · subst same
      rw [kreplace_cons_self, dlookup_cons_eq]
    · rw [kreplace_cons_of_ne new same, dlookup_cons_ne _ _ same]
      exact ih ((mem_cons.mp present).resolve_left same)

theorem dlookup_kreplace_ne {key other : κ} (new : ν key) (different : other ≠ key)
    (entries : List (Sigma ν)) :
    dlookup other (kreplace key new entries) = dlookup other entries := by
  induction entries with
  | nil => rfl
  | cons entry rest ih =>
    obtain ⟨found, value⟩ := entry
    by_cases same : key = found
    · subst same
      rw [kreplace_cons_self, dlookup_cons_ne _ _ different, dlookup_cons_ne _ _ different]
    · rw [kreplace_cons_of_ne new same]
      by_cases asked : other = found
      · subst asked
        rw [dlookup_cons_eq, dlookup_cons_eq]
      · rw [dlookup_cons_ne _ _ asked, dlookup_cons_ne _ _ asked, ih]

/-! ### Parts of a list, chosen by the key -/

section Part

variable (chosen : κ → Bool)

/-- The entries with a chosen key. -/
def part (entries : List (Sigma ν)) : List (Sigma ν) := entries.filter fun entry => chosen entry.1

variable {chosen} {entry : Sigma ν}

theorem part_cons_chosen (isChosen : chosen entry.1 = true) (rest : List (Sigma ν)) :
    part chosen (entry :: rest) = entry :: part chosen rest :=
  filter_cons_of_pos isChosen

theorem part_cons_other (other : chosen entry.1 = false) (rest : List (Sigma ν)) :
    part chosen (entry :: rest) = part chosen rest :=
  filter_cons_of_neg (Bool.eq_false_iff.mp other)

theorem mem_keys_part {key : κ} {entries : List (Sigma ν)} :
    key ∈ (part chosen entries).keys ↔ chosen key = true ∧ key ∈ entries.keys := by
  constructor
  · intro member
    obtain ⟨entry, inside, rfl⟩ := mem_map.mp member
    obtain ⟨listed, isChosen⟩ := mem_filter.mp inside
    exact ⟨isChosen, mem_map_of_mem listed⟩
  · rintro ⟨isChosen, member⟩
    obtain ⟨entry, inside, rfl⟩ := mem_map.mp member
    exact mem_map_of_mem (mem_filter.mpr ⟨inside, isChosen⟩)

theorem notMem_keys_part {key : κ} (other : chosen key = false) (entries : List (Sigma ν)) :
    key ∉ (part chosen entries).keys :=
  fun member => Bool.false_ne_true (other.symm.trans (mem_keys_part.mp member).1)

theorem part_kreplace (key : κ) (new : ν key) (entries : List (Sigma ν)) :
    part chosen (kreplace key new entries) = kreplace key new (part chosen entries) := by
  induction entries with
  | nil => rfl
  | cons entry rest ih =>
    obtain ⟨found, value⟩ := entry
    by_cases same : key = found
    · subst same
      rw [kreplace_cons_self]
      cases isChosen : chosen key with
      | true => rw [part_cons_chosen isChosen, part_cons_chosen isChosen, kreplace_cons_self]
      | false =>
        rw [part_cons_other isChosen, part_cons_other isChosen,
          kreplace_of_notMem new (notMem_keys_part isChosen rest)]
    · rw [kreplace_cons_of_ne new same]
      cases isChosen : chosen found with
      | true =>
        rw [part_cons_chosen isChosen, part_cons_chosen isChosen, kreplace_cons_of_ne new same, ih]
      | false => rw [part_cons_other isChosen, part_cons_other isChosen, ih]

theorem part_kerase (key : κ) (entries : List (Sigma ν)) :
    part chosen (kerase key entries) = kerase key (part chosen entries) := by
  induction entries with
  | nil => rfl
  | cons entry rest ih =>
    by_cases same : key = entry.1
    · rw [kerase_cons_eq same]
      cases isChosen : chosen entry.1 with
      | true => rw [part_cons_chosen isChosen, kerase_cons_eq same]
      | false =>
        rw [part_cons_other isChosen,
          kerase_of_notMem_keys (notMem_keys_part (same ▸ isChosen) rest)]
    · rw [kerase_cons_ne same]
      cases isChosen : chosen entry.1 with
      | true => rw [part_cons_chosen isChosen, part_cons_chosen isChosen, kerase_cons_ne same, ih]
      | false => rw [part_cons_other isChosen, part_cons_other isChosen, ih]

theorem dlookup_part {key : κ} (isChosen : chosen key = true) (entries : List (Sigma ν)) :
    dlookup key (part chosen entries) = dlookup key entries := by
  induction entries with
  | nil => rfl
  | cons entry rest ih =>
    by_cases same : key = entry.1
    · obtain ⟨found, value⟩ := entry
      obtain rfl : key = found := same
      rw [part_cons_chosen isChosen, dlookup_cons_eq, dlookup_cons_eq]
    · rw [dlookup_cons_ne _ _ same]
      cases found : chosen entry.1 with
      | true => rw [part_cons_chosen found, dlookup_cons_ne _ _ same, ih]
      | false => rw [part_cons_other found, ih]

end Part

/-! ### Ledgers -/

/-- The value of a key, rewritten in its place or entered in front. -/
def put (key : κ) (value : ν key) (ledger : AList ν) : AList ν :=
  if key ∈ ledger then ledger.replace key value else ledger.insert key value

theorem lookup_put (key : κ) (value : ν key) (ledger : AList ν) :
    (put key value ledger).lookup key = some value := by
  unfold put
  split
  · rename_i present
    exact dlookup_kreplace value present
  · exact AList.lookup_insert ledger

theorem lookup_put_ne {key other : κ} (value : ν key) (different : other ≠ key)
    (ledger : AList ν) : (put key value ledger).lookup other = ledger.lookup other := by
  unfold put
  split
  · exact dlookup_kreplace_ne value different ledger.entries
  · exact AList.lookup_insert_ne different

variable (bucketOf : κ → Option ι)

/-- The entries whose keys belong to a bucket. -/
def slice (ledger : AList ν) (index : ι) : List (Sigma ν) :=
  part (fun key => decide (bucketOf key = some index)) ledger.entries

variable {bucketOf} {ledger : AList ν} {key : κ} {index : ι}

/-- A key is looked up in its bucket. -/
theorem dlookup_slice (place : bucketOf key = some index) :
    dlookup key (slice bucketOf ledger index) = ledger.lookup key :=
  dlookup_part (by simpa using place) ledger.entries

theorem mem_keys_slice : key ∈ (slice bucketOf ledger index).keys ↔
    bucketOf key = some index ∧ key ∈ ledger := by
  rw [slice, mem_keys_part, decide_eq_true_iff]
  rfl

theorem slice_nodupKeys (ledger : AList ν) (index : ι) :
    (slice bucketOf ledger index).NodupKeys :=
  .sublist filter_sublist ledger.nodupKeys

/-- **A key that is rewritten** changes its own bucket. -/
theorem slice_put_present (present : key ∈ ledger) (value : ν key) (index : ι) :
    slice bucketOf (put key value ledger) index =
      kreplace key value (slice bucketOf ledger index) := by
  rw [put, if_pos present]
  exact part_kreplace key value ledger.entries

/-- **A new key** goes to the front of its bucket. -/
theorem slice_put_absent (absent : key ∉ ledger) (value : ν key)
    (place : bucketOf key = some index) :
    slice bucketOf (put key value ledger) index = ⟨key, value⟩ :: slice bucketOf ledger index := by
  rw [put, if_neg absent, AList.insert_of_notMem absent]
  exact part_cons_chosen (by simpa using place) _

/-- No other bucket changes. -/
theorem slice_put_of_ne (value : ν key) (elsewhere : bucketOf key ≠ some index)
    (ledger : AList ν) :
    slice bucketOf (put key value ledger) index = slice bucketOf ledger index := by
  have absent : key ∉ (slice bucketOf ledger index).keys := fun member =>
    elsewhere (mem_keys_slice.mp member).1
  by_cases present : key ∈ ledger
  · rw [slice_put_present present, kreplace_of_notMem value absent]
  · rw [put, if_neg present, AList.insert_of_notMem present]
    exact part_cons_other (by simpa using elsewhere) _

/-- **A key that is erased** leaves its bucket. -/
theorem slice_erase (ledger : AList ν) (key : κ) (index : ι) :
    slice bucketOf (ledger.erase key) index = kerase key (slice bucketOf ledger index) :=
  part_kerase key ledger.entries

theorem slice_erase_of_ne (elsewhere : bucketOf key ≠ some index) (ledger : AList ν) :
    slice bucketOf (ledger.erase key) index = slice bucketOf ledger index := by
  rw [slice_erase, kerase_of_notMem_keys fun member => elsewhere (mem_keys_slice.mp member).1]

end SplitLedger
