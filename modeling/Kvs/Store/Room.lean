/-
**Room for one more subscriber.**

A key has `MAX_CLIENTS` slots and `write_subscription` fails with `-1` when none of them is empty, a
branch the source says should not happen. `Connected steps fd` is read off a run: the descriptor has
subscribed, to some key, since its last disconnect. `AlwaysRoom` says that a client always finds an
empty slot, as long as with it at most `MAX_CLIENTS` are connected.

A client that subscribes to a key of which it holds a slot takes a second one, and with it the place
of a client still to come (`crowded_not_alwaysRoom`). Nothing else goes wrong: in a run without such
a step every slot of a key is held by a connected client of its own (`alwaysRoom_of_single`).
-/

import Kvs.Store.Notification

namespace Kvs.Server

/-- The step is the descriptor's disconnect, or the disconnect of all. -/
def Step.disconnects (fd : Fd) (step : Step) : Prop :=
  step.op = .disconnect fd ∨ step.op = .disconnectAll

/-- The descriptor has subscribed since it was last disconnected. -/
def Connected (steps : List Step) (fd : Fd) : Prop :=
  EventLog.Since (fun step => ∃ key, step.subscribes key fd) (Step.disconnects fd) steps

/-- Every subscription to a present key is answered `'1'`, if with the descriptor subscribing at
most `MAX_CLIENTS` are connected. -/
def AlwaysRoom (steps : List Step) : Prop :=
  ∀ earlier step later, steps = earlier ++ step :: later →
    ∀ key fd, step.op = .writeSubscription key fd → step.before.valueAt key ≠ none →
      {other | other = fd ∨ Connected earlier other}.encard ≤ maxClients →
      ∃ table, subscribe key.1 fd step.before = .ok ('1'.toUInt8, table)

/-- The step subscribes a descriptor to a key of which it already holds a slot. -/
def Step.resubscribes (step : Step) : Prop :=
  match step.op with
  | .writeSubscription key fd => ∃ node ∈ step.before.lookup key.1, fd ∈ node.subscribersFds.fds
  | _ => False

instance : DecidablePred Step.resubscribes
  | ⟨.writeSubscription key fd, before, _⟩ =>
    inferInstanceAs (Decidable (∃ node ∈ before.lookup key.1, fd ∈ node.subscribersFds.fds))
  | ⟨.writePair _ _, _, _⟩ | ⟨.deletePair _, _, _⟩ | ⟨.readPair _, _, _⟩
  | ⟨.deleteSubscription _ _, _, _⟩ | ⟨.disconnect _, _, _⟩ | ⟨.disconnectAll, _, _⟩ => .isFalse id

/-- A subscription that takes a second slot is one to a key of which a slot is held. -/
theorem Step.resubscribes_of_repeats {step : Step} (repeated : step.repeatsSubscription) :
    step.resubscribes := by
  obtain ⟨key, fd, node, call, present, inside, _⟩ := repeated
  unfold Step.resubscribes
  rw [call]
  exact ⟨node, present, inside⟩

/-- Who is subscribed to a key is connected. -/
theorem Subscribed.connected {steps : List Step} {key : Key} {fd : Fd}
    (subscribed : Subscribed steps key fd) : Connected steps fd := by
  refine subscribed.mono (fun step opens => ⟨key, opens⟩) fun step disconnects => ?_
  unfold Step.ends
  rcases disconnects with call | call
  · rw [call]
  · rw [call]
    trivial

/-- The slots of a key without an empty one are held by as many connected descriptors. -/
theorem connected_of_full {steps : List Step} {key : Key} {node : KeyNode}
    (tallies : ∀ fd, fd ≠ 0 → Tallies steps key fd (node.subscribersFds.held fd))
    (full : 0 ∉ node.subscribersFds.fds) :
    node.subscribersFds.fds.toFinset.card = maxClients ∧
      ∀ fd ∈ node.subscribersFds.fds, Connected steps fd := by
  have held : ∀ fd ∈ node.subscribersFds.fds, Subscribed steps key fd := by
    intro fd inside
    by_contra absent
    have none := (tallies fd fun zero => full (zero ▸ inside)).others absent
    exact List.count_eq_zero.mp none inside
  refine ⟨?_, fun fd inside => (held fd inside).connected⟩
  have nodup : node.subscribersFds.fds.Nodup := by
    rw [List.nodup_iff_count_le_one]
    intro fd
    by_cases inside : fd ∈ node.subscribersFds.fds
    · exact ((tallies fd fun zero => full (zero ▸ inside)).subscribed (held fd inside)).le
    · rw [List.count_eq_zero.mpr inside]
      exact zero_le_one
  rw [List.toFinset_card_of_nodup nodup, node.subscribersFds.length_eq]

/-- **There is an empty slot** for a descriptor that has none of the key's. -/
theorem room_of_tallies {steps : List Step} {key : Key} {fd : Fd} {node : KeyNode}
    (tallies : ∀ fd, fd ≠ 0 → Tallies steps key fd (node.subscribersFds.held fd))
    (fresh : fd ∉ node.subscribersFds.fds)
    (few : {other | other = fd ∨ Connected steps other}.encard ≤ maxClients) :
    0 ∈ node.subscribersFds.fds := by
  by_contra full
  obtain ⟨card, connected⟩ := connected_of_full tallies full
  -- The holders and the newcomer are one more than the slots.
  have among : ((insert fd node.subscribersFds.fds.toFinset : Finset Fd) : Set Fd) ⊆
      {other | other = fd ∨ Connected steps other} := by
    intro other member
    rcases Finset.mem_insert.mp (Finset.mem_coe.mp member) with same | inside
    · exact .inl same
    · exact .inr (connected other (List.mem_toFinset.mp inside))
  have many := (Set.encard_le_encard among).trans few
  rw [Set.encard_coe_eq_coe_finsetCard,
    Finset.card_insert_of_notMem (List.mem_toFinset.not.mpr fresh), card] at many
  exact absurd many (by decide)

/-- **There is always room for a subscriber** in a run where no client subscribes to a key of which
it holds a slot. -/
theorem alwaysRoom_of_single {steps : List Step} {ht : HashTable}
    (run : Run createHashTable steps ht) (single : ∀ step ∈ steps, ¬ step.resubscribes) :
    AlwaysRoom steps := by
  rintro earlier step later rfl key fd call value few
  obtain ⟨before, _⟩ := run.at_step rfl
  obtain ⟨old, valued⟩ := Option.ne_none_iff_exists'.mp value
  obtain ⟨node, present, _⟩ := Option.map_eq_some_iff.mp valued
  have held := heldOnce_run before fun other member repeated =>
    single other (List.mem_append_left _ member) (Step.resubscribes_of_repeats repeated)
  have fresh : fd ∉ node.subscribersFds.fds := by
    intro inside
    refine single step (by simp) ?_
    unfold Step.resubscribes
    rw [call]
    exact ⟨node, present, inside⟩
  have room := room_of_tallies (held key node present) fresh few
  obtain ⟨table, called, _⟩ := writeSubscription_present before.wellFormed key fd present
  refine ⟨table, ?_⟩
  rw [subscribe, called, if_pos room]
  rfl

/-- A second client's descriptor. -/
def otherFd : ClientFd := ⟨10, by decide⟩

/-- Two clients subscribe to a key, the first one leaves, and subscribes again. -/
def returningOps : List StoreOp :=
  [.writePair keyA valueAnna, .writeSubscription keyA clientFd.1,
    .writeSubscription keyA otherFd.1, .disconnect clientFd.1,
    .writeSubscription keyA clientFd.1]

/-- The key has every slot taken, and then one free again. -/
theorem alwaysRoom_of_subscription : ∃ steps ht, Run createHashTable steps ht ∧
    steps.map Step.op = returningOps ∧ AlwaysRoom steps := by
  have written : (StoreOp.writePair keyA valueAnna).exec createHashTable = .ok _ := rfl
  have run := ((((Run.snoc .nil written).snoc
    (show (StoreOp.writeSubscription keyA clientFd.1).exec _ = .ok _ from rfl)).snoc
    (show (StoreOp.writeSubscription keyA otherFd.1).exec _ = .ok _ from rfl)).snoc
    (show (StoreOp.disconnect clientFd.1).exec _ = .ok _ from rfl)).snoc
    (show (StoreOp.writeSubscription keyA clientFd.1).exec _ = .ok _ from rfl)
  exact ⟨_, _, run, rfl, alwaysRoom_of_single run (by decide)⟩

/-! ### A client that takes the place of another -/

/-- A client subscribes twice to a key. -/
def crowdingOps : List StoreOp :=
  [.writePair keyA valueAnna, .writeSubscription keyA clientFd.1,
    .writeSubscription keyA clientFd.1]

/-- Only the client that subscribed is connected. -/
theorem connected_crowding {steps : List Step} (ops : steps.map Step.op = crowdingOps) {fd : Fd}
    (connected : Connected steps fd) : fd = clientFd.1 := by
  obtain ⟨step, member, key, opens⟩ := connected.exists
  have inside : step.op ∈ crowdingOps := ops ▸ List.mem_map_of_mem member
  rw [opens.1] at inside
  simp only [crowdingOps, List.mem_cons, List.not_mem_nil, StoreOp.writeSubscription.injEq,
    reduceCtorEq, or_false, false_or] at inside
  rcases inside with ⟨_, same⟩ | ⟨_, same⟩ <;> exact same

/-- The second client, one of two, finds no slot. -/
theorem crowded_not_alwaysRoom :
    ¬ ∀ steps ht, Run createHashTable steps ht → NamesDescriptors steps → AlwaysRoom steps := by
  intro always
  obtain ⟨steps, ht, run, ops, _⟩ := run_exists createHashTable_wellFormed
    (crowdingOps ++ [.writeSubscription keyA otherFd.1])
  have names : NamesDescriptors steps := by
    intro step member
    have inside : step.op ∈ steps.map Step.op := List.mem_map_of_mem member
    rw [ops] at inside
    revert inside
    generalize step.op = op
    simp only [crowdingOps, List.cons_append, List.nil_append, List.mem_cons, List.not_mem_nil,
      or_false]
    rintro (rfl | rfl | rfl | rfl)
    · trivial
    · exact clientFd.2
    · exact clientFd.2
    · exact otherFd.2
  obtain ⟨earlier, last, split, earlierOps, lastOp⟩ := List.map_eq_append_iff.mp ops
  obtain ⟨step, rfl, call⟩ := List.map_eq_singleton_iff.mp lastOp
  obtain ⟨before, _⟩ := run.at_step split
  have ran : runOps crowdingOps createHashTable = .ok step.before :=
    earlierOps ▸ before.runOps
  have value : (runOps crowdingOps createHashTable).map (fun ht => ht.valueAt keyA) =
      .ok (some valueAnna) := by rfl
  have refused : (runOps crowdingOps createHashTable).bind (fun ht =>
      (subscribe keyA.1 otherFd.1 ht).map Prod.fst) = .ok '0'.toUInt8 := by rfl
  rw [ran] at value refused
  have present : step.before.valueAt keyA ≠ none := by
    rw [show step.before.valueAt keyA = _ from Except.ok.inj value]
    exact Option.some_ne_none _
  have few : {other | other = otherFd.1 ∨ Connected earlier other}.encard ≤ maxClients := by
    have pair : {other | other = otherFd.1 ∨ Connected earlier other} ⊆
        ({otherFd.1, clientFd.1} : Set Fd) := by
      rintro other (same | connected)
      · exact .inl same
      · exact .inr (connected_crowding earlierOps connected)
    exact (Set.encard_le_encard pair).trans (Set.encard_pair (by decide)).le
  obtain ⟨table, answered⟩ := always steps ht run names earlier step [] split keyA otherFd.1 call
    present few
  simp only [Except.bind, answered] at refused
  have same : '1'.toUInt8 = '0'.toUInt8 := Except.ok.inj refused
  exact absurd same (by decide)

end Kvs.Server
