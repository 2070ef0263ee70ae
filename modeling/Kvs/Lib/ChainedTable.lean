/-
**Chained hash tables.**

A table gives every bucket a chain of nodes; a partial hash sends a key to its bucket, or to none.
The key and node types, the bucket type and the hash are parameters.

* `visit key found chain` walks a chain to the first node with the key and lets `found` answer
  from it and say what stays in its place: a rewritten node, or nothing when it is unlinked.
  `visit_eq_some_iff` describes it once; the other rules follow from that description.
* `WellFormed`: every node lies in the bucket its key hashes to, and no chain has a key twice.
* `lookup` is the finite map a well-formed table stands for. `insert_*`, `visit_*` and `mapNodes_*`
  say that inserting at the head of a chain, visiting a node and rewriting every node keep
  `WellFormed` and act on `lookup` as the map operation of that name.
-/

import Mathlib

set_option linter.unusedSectionVars false

namespace ChainedTable

variable {κ ν ρ : Type} [DecidableEq κ] (keyOf : ν → κ)

/-! ### One chain -/

/-- The first node with the key. -/
def find (key : κ) (chain : List ν) : Option ν :=
  chain.find? fun node => decide (keyOf node = key)

/-- Walk to the first node with the key; `none` when the walk falls off the chain. -/
def visit (key : κ) (found : ν → ρ × Option ν) : List ν → Option (ρ × List ν)
  | [] => none
  | node :: next =>
    if keyOf node = key then some ((found node).1, (found node).2.toList ++ next)
    else (visit key found next).map fun outcome => (outcome.1, node :: outcome.2)

variable {keyOf}

@[simp] theorem find_nil (key : κ) : find keyOf key [] = none := rfl

theorem find_cons (key : κ) (node : ν) (next : List ν) :
    find keyOf key (node :: next) =
      if keyOf node = key then some node else find keyOf key next := by
  unfold find
  rw [List.find?_cons]
  split <;> rename_i test
  · rw [if_pos (by simpa using test)]
  · rw [if_neg (by simpa using test)]

theorem find_eq_none {key : κ} {chain : List ν} :
    find keyOf key chain = none ↔ ∀ node ∈ chain, keyOf node ≠ key := by
  simp [find]

theorem find_append (key : κ) (before after : List ν) :
    find keyOf key (before ++ after) = (find keyOf key before).or (find keyOf key after) :=
  List.find?_append

/-- The nodes before the first one with the key do not matter to a search. -/
theorem find_append_of_not_mem {key : κ} {before : List ν} (after : List ν)
    (others : ∀ node ∈ before, keyOf node ≠ key) :
    find keyOf key (before ++ after) = find keyOf key after := by
  rw [find_append, find_eq_none.mpr others, Option.none_or]

/-- **What a visit does.** It splits the chain at the first node with the key. -/
theorem visit_eq_some_iff {key : κ} {found : ν → ρ × Option ν} {chain chain' : List ν}
    {answer : ρ} :
    visit keyOf key found chain = some (answer, chain') ↔
      ∃ before node after, chain = before ++ node :: after ∧
        (∀ other ∈ before, keyOf other ≠ key) ∧ keyOf node = key ∧
        answer = (found node).1 ∧ chain' = before ++ ((found node).2.toList ++ after) := by
  induction chain generalizing chain' with
  | nil => simp [visit]
  | cons head next ih =>
    by_cases same : keyOf head = key
    · rw [visit, if_pos same]
      constructor
      · intro equal
        cases equal
        exact ⟨[], head, next, rfl, by simp, same, rfl, rfl⟩
      · rintro ⟨before, node, after, split, others, _, rfl, rfl⟩
        cases before with
        | nil =>
          obtain ⟨rfl, rfl⟩ := List.cons.inj split
          rfl
        | cons first before =>
          obtain ⟨rfl, _⟩ := List.cons.inj split
          exact absurd same (others head List.mem_cons_self)
    · rw [visit, if_neg same]
      constructor
      · intro equal
        obtain ⟨⟨answer', rest⟩, visited, pair⟩ := Option.map_eq_some_iff.mp equal
        cases pair
        obtain ⟨before, node, after, rfl, others, isKey, rfl, rfl⟩ := ih.mp visited
        refine ⟨head :: before, node, after, rfl, ?_, isKey, rfl, rfl⟩
        intro other member
        rcases List.mem_cons.mp member with rfl | member
        · exact same
        · exact others other member
      · rintro ⟨before, node, after, split, others, isKey, rfl, rfl⟩
        cases before with
        | nil =>
          obtain ⟨rfl, rfl⟩ := List.cons.inj split
          exact absurd isKey same
        | cons first before =>
          obtain ⟨rfl, rfl⟩ := List.cons.inj split
          have visited := ih.mpr ⟨before, node, after, rfl,
            fun other member => others other (List.mem_cons_of_mem _ member), isKey, rfl, rfl⟩
          rw [visited]
          rfl

/-- A visit falls off the chain exactly when no node has the key. -/
theorem visit_eq_none {key : κ} {found : ν → ρ × Option ν} {chain : List ν} :
    visit keyOf key found chain = none ↔ find keyOf key chain = none := by
  induction chain with
  | nil => simp [visit]
  | cons head next ih =>
    rw [find_cons, visit]
    by_cases same : keyOf head = key
    · simp [same]
    · simp [same, ih]

/-- A visit passes over every node, or stops at the first one with the key. -/
theorem visit_cases (key : κ) (found : ν → ρ × Option ν) (chain : List ν) :
    (visit keyOf key found chain = none ∧ ∀ node ∈ chain, keyOf node ≠ key) ∨
      ∃ before node after, chain = before ++ node :: after ∧
        (∀ other ∈ before, keyOf other ≠ key) ∧ keyOf node = key ∧
        visit keyOf key found chain =
          some ((found node).1, before ++ ((found node).2.toList ++ after)) := by
  cases outcome : visit keyOf key found chain with
  | none => exact .inl ⟨rfl, find_eq_none.mp (visit_eq_none.mp outcome)⟩
  | some pair =>
    obtain ⟨before, node, after, split, others, isKey, answered, left⟩ :=
      visit_eq_some_iff.mp outcome
    refine .inr ⟨before, node, after, split, others, isKey, ?_⟩
    rw [← answered, ← left]

/-- A visit answers from the node a search finds. -/
theorem visit_of_find (found : ν → ρ × Option ν) {key : κ} {chain : List ν} {node : ν}
    (present : find keyOf key chain = some node) :
    ∃ chain', visit keyOf key found chain = some ((found node).1, chain') := by
  cases outcome : visit keyOf key found chain with
  | none => rw [visit_eq_none.mp outcome] at present; cases present
  | some pair =>
    obtain ⟨answer, chain'⟩ := pair
    obtain ⟨before, node', after, rfl, others, isKey, rfl, -⟩ := visit_eq_some_iff.mp outcome
    rw [find_append_of_not_mem _ others, find_cons, if_pos isKey] at present
    cases present
    exact ⟨chain', rfl⟩

/-- The node that stays in place of the visited one still has its key. -/
def Keeps (keyOf : ν → κ) (found : ν → ρ × Option ν) : Prop :=
  ∀ node kept, (found node).2 = some kept → keyOf kept = keyOf node

section Visited

variable {key : κ} {found : ν → ρ × Option ν} {chain chain' : List ν} {answer : ρ}

/-- The keys of a visited chain are keys of the chain, in its order. -/
theorem visit_keys_sublist (keeps : Keeps keyOf found)
    (visited : visit keyOf key found chain = some (answer, chain')) :
    (chain'.map keyOf).Sublist (chain.map keyOf) := by
  obtain ⟨before, node, after, rfl, -, -, -, rfl⟩ := visit_eq_some_iff.mp visited
  rw [List.map_append, List.map_append, List.map_append, List.map_cons]
  refine List.Sublist.append_left ?_ _
  cases staying : (found node).2 with
  | none => exact List.sublist_cons_self _ _
  | some kept =>
    rw [Option.toList_some, List.map_singleton, keeps node kept staying]
    exact List.Sublist.refl _

/-- A visit leaves every other key as it was. -/
theorem find_visit_of_ne (keeps : Keeps keyOf found)
    (visited : visit keyOf key found chain = some (answer, chain')) {other : κ}
    (different : other ≠ key) : find keyOf other chain' = find keyOf other chain := by
  obtain ⟨before, node, after, rfl, -, isKey, -, rfl⟩ := visit_eq_some_iff.mp visited
  have nodeOther : keyOf node ≠ other := fun same => different (same.symm.trans isKey)
  have middle : find keyOf other ((found node).2.toList ++ after) =
      find keyOf other (node :: after) := by
    rw [find_cons, if_neg nodeOther]
    cases staying : (found node).2 with
    | none => rfl
    | some kept =>
      have keptOther : keyOf kept ≠ other := by
        rw [keeps node kept staying]
        exact nodeOther
      rw [Option.toList_some, List.singleton_append, find_cons, if_neg keptOther]
  rw [find_append, middle, ← find_append]

/-- In a chain without repeated keys a visit leaves at the key what `found` says. -/
theorem find_visit_self (keeps : Keeps keyOf found) (nodup : (chain.map keyOf).Nodup)
    (visited : visit keyOf key found chain = some (answer, chain')) :
    ∃ node, find keyOf key chain = some node ∧ answer = (found node).1 ∧
      find keyOf key chain' = (found node).2 := by
  obtain ⟨before, node, after, rfl, others, isKey, rfl, rfl⟩ := visit_eq_some_iff.mp visited
  refine ⟨node, ?_, rfl, ?_⟩
  · rw [find_append_of_not_mem _ others, find_cons, if_pos isKey]
  · have absent : find keyOf key after = none := by
      rw [find_eq_none]
      intro other member sameKey
      rw [List.map_append, List.map_cons] at nodup
      have distinct := (List.nodup_cons.mp nodup.of_append_right).1
      rw [isKey, ← sameKey] at distinct
      exact distinct (List.mem_map_of_mem member)
    rw [find_append_of_not_mem _ others]
    cases staying : (found node).2 with
    | none => exact absent
    | some kept =>
      rw [Option.toList_some, List.singleton_append, find_cons,
        if_pos ((keeps node kept staying).trans isKey)]

/-- What holds of every node still does when the visited one keeps it. -/
theorem visit_forall {good : ν → Prop}
    (stays : ∀ node kept, good node → (found node).2 = some kept → good kept)
    (visited : visit keyOf key found chain = some (answer, chain'))
    (all : ∀ node ∈ chain, good node) : ∀ node ∈ chain', good node := by
  obtain ⟨before, node, after, rfl, -, -, -, rfl⟩ := visit_eq_some_iff.mp visited
  intro other member
  rcases List.mem_append.mp member with member | member
  · exact all other (List.mem_append_left _ member)
  · rcases List.mem_append.mp member with member | member
    · exact stays node other (all node (by simp)) (Option.mem_toList.mp member)
    · exact all other (by simp [member])

end Visited

/-! ### The nodes of one key -/

section NodesOf

variable (keyOf) in
/-- The nodes of a chain that have the key, in their order. -/
def nodesOf (key : κ) (chain : List ν) : List ν :=
  chain.filter fun node => decide (keyOf node = key)

theorem nodesOf_cons_self {key : κ} {node : ν} (same : keyOf node = key) (next : List ν) :
    nodesOf keyOf key (node :: next) = node :: nodesOf keyOf key next :=
  List.filter_cons_of_pos (by simpa using same)

theorem nodesOf_cons_of_ne {key : κ} {node : ν} (different : keyOf node ≠ key) (next : List ν) :
    nodesOf keyOf key (node :: next) = nodesOf keyOf key next :=
  List.filter_cons_of_neg (by simpa using different)

theorem nodesOf_append (key : κ) (before after : List ν) :
    nodesOf keyOf key (before ++ after) = nodesOf keyOf key before ++ nodesOf keyOf key after :=
  List.filter_append before after

/-- A search finds the first of them. -/
theorem find_eq_head? (key : κ) (chain : List ν) :
    find keyOf key chain = (nodesOf keyOf key chain).head? :=
  List.head?_filter.symm

variable {found : ν → ρ × Option ν}

/-- **A visit acts on the nodes of its key** as on a chain of their own. -/
theorem visit_nodesOf (keeps : Keeps keyOf found) (key : κ) (chain : List ν) :
    visit keyOf key found (nodesOf keyOf key chain) =
      (visit keyOf key found chain).map fun outcome =>
        (outcome.1, nodesOf keyOf key outcome.2) := by
  induction chain with
  | nil => rfl
  | cons node next ih =>
    by_cases same : keyOf node = key
    · rw [nodesOf_cons_self same, visit, if_pos same, visit, if_pos same, Option.map_some]
      cases staying : (found node).2 with
      | none => rfl
      | some kept =>
        have keptKey : keyOf kept = key := (keeps node kept staying).trans same
        simp only [Option.toList_some, List.singleton_append, nodesOf_cons_self keptKey]
    · rw [nodesOf_cons_of_ne same, visit, if_neg same, ih, Option.map_map]
      congr 1
      funext outcome
      exact congrArg (Prod.mk outcome.1) (nodesOf_cons_of_ne same outcome.2).symm

/-- **A visit leaves the nodes of every other key.** -/
theorem nodesOf_visit_of_ne (keeps : Keeps keyOf found) {key other : κ} {chain chain' : List ν}
    {answer : ρ} (visited : visit keyOf key found chain = some (answer, chain'))
    (different : other ≠ key) : nodesOf keyOf other chain' = nodesOf keyOf other chain := by
  obtain ⟨before, node, after, rfl, -, isKey, -, rfl⟩ := visit_eq_some_iff.mp visited
  have nodeOther : keyOf node ≠ other := fun same => different (same.symm.trans isKey)
  have middle : nodesOf keyOf other ((found node).2.toList ++ after) =
      nodesOf keyOf other (node :: after) := by
    rw [nodesOf_cons_of_ne nodeOther]
    cases staying : (found node).2 with
    | none => rfl
    | some kept =>
      exact nodesOf_cons_of_ne (fun same => nodeOther ((keeps node kept staying).symm.trans same)) _
  rw [nodesOf_append, middle, ← nodesOf_append]

end NodesOf

/-! ### The table -/

section Table

variable {β : Type} [DecidableEq β] (keyOf) (hash : κ → Option β)

/-- Every node lies in the bucket its key hashes to, and no chain has a key twice. -/
structure WellFormed (table : β → List ν) : Prop where
  nodup : ∀ bucket, ((table bucket).map keyOf).Nodup
  placed : ∀ bucket, ∀ node ∈ table bucket, hash (keyOf node) = some bucket

/-- The finite map a table stands for. -/
def lookup (table : β → List ν) (key : κ) : Option ν :=
  (hash key).bind fun bucket => find keyOf key (table bucket)

variable {keyOf hash} {table : β → List ν}

/-- The empty table. -/
theorem wellFormed_empty : WellFormed keyOf hash fun _ : β => [] :=
  ⟨fun _ => List.nodup_nil, fun _ _ member => absurd member List.not_mem_nil⟩

theorem lookup_empty (key : κ) : lookup keyOf hash (fun _ : β => []) key = none := by
  cases place : hash key <;> simp [lookup, place]

theorem lookup_of_hash {key : κ} {bucket : β} (place : hash key = some bucket) :
    lookup keyOf hash table key = find keyOf key (table bucket) := by
  rw [lookup, place, Option.bind_some]

/-- **The nodes of the table are the entries of the map.** -/
theorem lookup_eq_some_iff (wf : WellFormed keyOf hash table) {key : κ} {node : ν} :
    lookup keyOf hash table key = some node ↔
      (∃ bucket, node ∈ table bucket) ∧ keyOf node = key := by
  constructor
  · intro present
    obtain ⟨bucket, -, found⟩ := Option.bind_eq_some_iff.mp present
    exact ⟨⟨bucket, List.mem_of_find?_eq_some found⟩, by simpa using List.find?_some found⟩
  · rintro ⟨⟨bucket, member⟩, rfl⟩
    rw [lookup_of_hash (wf.placed bucket node member)]
    obtain ⟨before, after, split⟩ := List.append_of_mem member
    have nodup := wf.nodup bucket
    rw [split, List.map_append, List.map_cons] at nodup
    have others : ∀ other ∈ before, keyOf other ≠ keyOf node := fun other inside =>
      (List.nodup_append.mp nodup).2.2 _ (List.mem_map_of_mem inside) _ List.mem_cons_self
    rw [split, find_append_of_not_mem _ others, find_cons, if_pos rfl]

/-- Replacing one chain changes the map inside that bucket only. -/
theorem lookup_update {bucket : β} {chain : List ν} {key : κ} :
    lookup keyOf hash (Function.update table bucket chain) key =
      if hash key = some bucket then find keyOf key chain else lookup keyOf hash table key := by
  cases place : hash key with
  | none => simp [lookup, place]
  | some home =>
    by_cases same : home = bucket
    · subst same
      simp [lookup, place]
    · simp [lookup, place, same]

/-! ### The operations keep the invariant and act on the map -/

theorem insert_wellFormed (wf : WellFormed keyOf hash table) (node : ν) {bucket : β}
    (place : hash (keyOf node) = some bucket)
    (absent : lookup keyOf hash table (keyOf node) = none) :
    WellFormed keyOf hash (Function.update table bucket (node :: table bucket)) := by
  rw [lookup_of_hash place, find_eq_none] at absent
  refine ⟨fun other => ?_, fun other => ?_⟩
  · by_cases same : other = bucket
    · subst same
      rw [Function.update_self, List.map_cons, List.nodup_cons]
      refine ⟨fun member => ?_, wf.nodup other⟩
      obtain ⟨twin, inside, sameKey⟩ := List.mem_map.mp member
      exact absent twin inside sameKey
    · rw [Function.update_of_ne same]
      exact wf.nodup other
  · by_cases same : other = bucket
    · subst same
      rw [Function.update_self]
      intro member inside
      rcases List.mem_cons.mp inside with rfl | inside
      · exact place
      · exact wf.placed other member inside
    · rw [Function.update_of_ne same]
      exact wf.placed other

/-- **Inserting at the head of its chain adds the node to the map.** -/
theorem insert_lookup (node : ν) {bucket : β} (place : hash (keyOf node) = some bucket) :
    lookup keyOf hash (Function.update table bucket (node :: table bucket)) =
      Function.update (lookup keyOf hash table) (keyOf node) (some node) := by
  funext key
  rw [lookup_update]
  by_cases same : key = keyOf node
  · subst same
    rw [if_pos place, Function.update_self, find_cons, if_pos rfl]
  · rw [Function.update_of_ne same]
    split
    · rename_i here
      rw [find_cons, if_neg (Ne.symm same), lookup_of_hash here]
    · rfl

section Visit

variable {key : κ} {bucket : β} {found : ν → ρ × Option ν} {answer : ρ} {chain' : List ν}

theorem visit_wellFormed (wf : WellFormed keyOf hash table) (keeps : Keeps keyOf found)
    (visited : visit keyOf key found (table bucket) = some (answer, chain')) :
    WellFormed keyOf hash (Function.update table bucket chain') := by
  have sublist := visit_keys_sublist keeps visited
  refine ⟨fun other => ?_, fun other => ?_⟩
  · by_cases same : other = bucket
    · subst same
      rw [Function.update_self]
      exact sublist.nodup (wf.nodup other)
    · rw [Function.update_of_ne same]
      exact wf.nodup other
  · by_cases same : other = bucket
    · subst same
      rw [Function.update_self]
      intro node member
      obtain ⟨twin, inside, sameKey⟩ :=
        List.mem_map.mp (sublist.subset (List.mem_map_of_mem member))
      rw [← sameKey]
      exact wf.placed other twin inside
    · rw [Function.update_of_ne same]
      exact wf.placed other

/-- **A visit answers from the map and rewrites the map at its key.** -/
theorem visit_lookup (wf : WellFormed keyOf hash table) (keeps : Keeps keyOf found)
    (place : hash key = some bucket)
    (visited : visit keyOf key found (table bucket) = some (answer, chain')) :
    ∃ node, lookup keyOf hash table key = some node ∧ answer = (found node).1 ∧
      lookup keyOf hash (Function.update table bucket chain') =
        Function.update (lookup keyOf hash table) key (found node).2 := by
  obtain ⟨node, present, answered, left⟩ := find_visit_self keeps (wf.nodup bucket) visited
  refine ⟨node, (lookup_of_hash place).trans present, answered, ?_⟩
  funext other
  rw [lookup_update]
  by_cases same : other = key
  · subst same
    rw [if_pos place, Function.update_self, left]
  · rw [Function.update_of_ne same]
    split
    · rename_i here
      rw [find_visit_of_ne keeps visited same, lookup_of_hash here]
    · rfl

end Visit

/-- Rewriting every node keeps the invariant when it keeps the keys. -/
theorem mapNodes_wellFormed (wf : WellFormed keyOf hash table) (rewrite : ν → ν)
    (keeps : ∀ node, keyOf (rewrite node) = keyOf node) :
    WellFormed keyOf hash fun bucket => (table bucket).map rewrite := by
  have sameKeys : keyOf ∘ rewrite = keyOf := funext keeps
  refine ⟨fun bucket => ?_, fun bucket node member => ?_⟩
  · rw [List.map_map, sameKeys]
    exact wf.nodup bucket
  · obtain ⟨old, inside, rfl⟩ := List.mem_map.mp member
    rw [keeps]
    exact wf.placed bucket old inside

/-- **Rewriting every node rewrites every entry of the map.** -/
theorem mapNodes_lookup (rewrite : ν → ν) (keeps : ∀ node, keyOf (rewrite node) = keyOf node)
    (key : κ) :
    lookup keyOf hash (fun bucket => (table bucket).map rewrite) key =
      (lookup keyOf hash table key).map rewrite := by
  cases place : hash key with
  | none => simp [lookup, place]
  | some bucket =>
    rw [lookup_of_hash place, lookup_of_hash place, find, List.find?_map]
    congr 2
    funext node
    simp [keeps]

end Table

end ChainedTable
