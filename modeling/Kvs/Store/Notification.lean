/-
**Who is told about a write or a deletion.**

`Call` is a call of one of the store operations; `Call.ops` are the table functions it makes, and
`CallRun.execCalls` says that a run of those functions is what making the calls gives.

`Subscribed steps key fd` is read off a run alone: since the node for the key was last created, the
latest of the successful subscriptions, the successful unsubscriptions and the disconnects that
concern the pair was a subscription. `ExactlyOnceAt` compares it with the frames the next
overwrite or removal of a key sends: one to each subscribed descriptor, none to any other.

`write_subscription` fills the first empty slot without looking whether the descriptor already has
one. A subscription that meets its descriptor in a slot, with another slot empty, takes a second
slot, and from then on the descriptor is told twice. `notified_exactly_once` shows that nothing else
goes wrong: a run notifies exactly once at every table it reaches if and only if none of its steps
is such a repeated subscription.
-/

import Kvs.Lib.EventLog
import Kvs.Store.Run

namespace Kvs.Server

/-! ### Slots -/

/-- Exchanging one occurrence moves one unit of count from the old entry to the new one. -/
theorem count_replace {l : List Fd} {old : Fd} (new fd : Fd) (inside : old ∈ l) :
    (l.replace old new).count fd + (if old = fd then 1 else 0) =
      l.count fd + (if new = fd then 1 else 0) := by
  induction l with
  | nil => exact absurd inside List.not_mem_nil
  | cons head rest ih =>
    by_cases same : head = old
    · subst same
      rw [List.replace_cons_self, List.count_cons, List.count_cons]
      simp only [beq_iff_eq]
      omega
    · have deeper : old ∈ rest := (List.mem_cons.mp inside).resolve_left (Ne.symm same)
      have skipped : (head :: rest).replace old new = head :: rest.replace old new := by
        rw [List.replace_cons, beq_eq_false_iff_ne.mpr (Ne.symm same)]
      rw [skipped, List.count_cons, List.count_cons]
      have := ih deeper
      omega

/-- How many slots hold the descriptor. -/
def Slots.held (slots : Slots) (fd : Fd) : ℕ := slots.fds.count fd

theorem Slots.held_empty {fd : Fd} (nonzero : fd ≠ 0) : Slots.empty.held fd = 0 := by
  rw [Slots.held, Slots.empty, List.count_replicate, if_neg (by simpa using Ne.symm nonzero)]

theorem Slots.held_remove_self {fd : Fd} (nonzero : fd ≠ 0) (slots : Slots) :
    (slots.remove fd).held fd = 0 := by
  rw [Slots.held, Slots.remove, List.count_eq_zero, List.mem_map]
  rintro ⟨slot, _, same⟩
  split at same
  · exact nonzero same.symm
  · exact absurd same (by assumption)

theorem Slots.held_remove_of_ne {fd other : Fd} (nonzero : other ≠ 0) (different : other ≠ fd)
    (slots : Slots) : (slots.remove fd).held other = slots.held other := by
  show (slots.fds.map fun slot => if slot = fd then 0 else slot).count other = slots.fds.count other
  induction slots.fds with
  | nil => rfl
  | cons slot rest ih =>
    rw [List.map_cons, List.count_cons, List.count_cons, ih]
    by_cases same : slot = fd
    · subst same
      simp [Ne.symm nonzero, Ne.symm different]
    · rw [if_neg same]

/-! ### Frames -/

/-- How many frames go to the descriptor. -/
def framesTo (fd : Fd) (sent : List Notification) : ℕ := (sent.map Notification.fd).count fd

/-- A descriptor is told once for every slot it holds. -/
theorem framesTo_notifySubscribers (slots : Slots) (key text : CStr) {fd : Fd} (nonzero : fd ≠ 0) :
    framesTo fd (notifySubscribers slots key text) = slots.held fd := by
  have fds : (notifySubscribers slots key text).map Notification.fd = slots.occupied := by
    rw [notifySubscribers, List.map_map]
    exact List.map_id' _
  rw [framesTo, fds, Slots.occupied, List.count_filter (by simpa using nonzero), Slots.held]

/-- An empty slot is told nothing. -/
theorem framesTo_zero (slots : Slots) (key text : CStr) :
    framesTo 0 (notifySubscribers slots key text) = 0 := by
  rw [framesTo, List.count_eq_zero, notifySubscribers, List.map_map, List.mem_map]
  rintro ⟨fd, member, same⟩
  rw [Slots.occupied, List.mem_filter] at member
  have zero : fd = 0 := same
  simp [zero] at member

/-! ### Who is subscribed, read off a run -/

/-- The step is a successful subscription of the descriptor to the key. -/
def Step.subscribes (key : Key) (fd : Fd) (step : Step) : Prop :=
  step.op = .writeSubscription key fd ∧ step.outcome.answer = .code 0

/-- The step ends a subscription of the descriptor to the key: it creates the key's node anew, or it
is a successful unsubscription, the descriptor's disconnect, or the disconnect of all. -/
def Step.ends (key : Key) (fd : Fd) (step : Step) : Prop :=
  match step.op with
  | .writePair written _ => written = key ∧ step.before.valueAt key = none
  | .deleteSubscription other fd' => other = key ∧ fd' = fd ∧ step.outcome.answer = .code 0
  | .disconnect fd' => fd' = fd
  | .disconnectAll => True
  | _ => False

/-- The descriptor is subscribed to the key after these steps. -/
def Subscribed (steps : List Step) (key : Key) (fd : Fd) : Prop :=
  EventLog.Since (Step.subscribes key fd) (Step.ends key fd) steps

/-- These frames go once to each subscribed descriptor and carry the text. -/
structure ExactlyOnce (steps : List Step) (key : Key) (text : CStr) (sent : List Notification) :
    Prop where
  subscribed : ∀ fd, Subscribed steps key fd → framesTo fd sent = 1
  others : ∀ fd, ¬ Subscribed steps key fd → framesTo fd sent = 0
  frames : ∀ notification ∈ sent, notification.frame = notificationFrame key.1 text

theorem ExactlyOnce.framesTo_le {steps : List Step} {key : Key} {text : CStr}
    {sent : List Notification} (exactly : ExactlyOnce steps key text sent) (fd : Fd) :
    framesTo fd sent ≤ 1 := by
  by_cases subscribed : Subscribed steps key fd
  · exact (exactly.subscribed fd subscribed).le
  · exact (exactly.others fd subscribed).le.trans zero_le_one

/-- At a table reached by these steps, every overwrite and every removal of a key notifies exactly
the subscribed descriptors, once each. -/
def ExactlyOnceAt (steps : List Step) (ht : HashTable) : Prop :=
  ∀ key : Key, ht.valueAt key ≠ none →
    (∀ value code table sent, writePair ht key.1 value = .ok (code, table, sent) →
      ExactlyOnce steps key value sent) ∧
    ∀ code table sent, deletePair ht key.1 = .ok (code, table, sent) →
      ExactlyOnce steps key deletedText sent

/-- The step subscribes a descriptor to a key of which it already holds a slot, and there is an
empty slot for it to take as well. -/
def Step.repeatsSubscription (step : Step) : Prop :=
  ∃ key fd node, step.op = .writeSubscription key fd ∧ step.before.lookup key.1 = some node ∧
    fd ∈ node.subscribersFds.fds ∧ 0 ∈ node.subscribersFds.fds

/-! ### The step lemma -/

section StepLemma

variable {steps : List Step} {step : Step} {key : Key} {fd : Fd}

theorem subscribed_of_subscribes (opens : step.subscribes key fd) :
    Subscribed (steps ++ [step]) key fd :=
  EventLog.since_snoc.mpr (Or.inl opens)

theorem not_subscribed_of_ends (idle : ¬ step.subscribes key fd) (ends : step.ends key fd) :
    ¬ Subscribed (steps ++ [step]) key fd := by
  intro subscribed
  rcases EventLog.since_snoc.mp subscribed with opens | ⟨stays, _⟩
  · exact idle opens
  · exact stays ends

theorem subscribed_of_idle (steps : List Step) (idle : ¬ step.subscribes key fd)
    (stays : ¬ step.ends key fd) :
    Subscribed (steps ++ [step]) key fd ↔ Subscribed steps key fd := by
  rw [Subscribed, EventLog.since_snoc]
  constructor
  · rintro (opens | ⟨_, subscribed⟩)
    · exact absurd opens idle
    · exact subscribed
  · exact fun subscribed => Or.inr ⟨stays, subscribed⟩

/-- The count of a descriptor's slots is one if it is subscribed and zero if it is not. -/
structure Tallies (steps : List Step) (key : Key) (fd : Fd) (count : ℕ) : Prop where
  subscribed : Subscribed steps key fd → count = 1
  others : ¬ Subscribed steps key fd → count = 0

theorem Tallies.of_subscribes (opens : step.subscribes key fd) :
    Tallies (steps ++ [step]) key fd 1 :=
  ⟨fun _ => rfl, fun absent => absurd (subscribed_of_subscribes opens) absent⟩

theorem Tallies.of_ends (idle : ¬ step.subscribes key fd) (ends : step.ends key fd) :
    Tallies (steps ++ [step]) key fd 0 :=
  ⟨fun subscribed => absurd subscribed (not_subscribed_of_ends idle ends), fun _ => rfl⟩

theorem Tallies.of_idle {count : ℕ} (tally : Tallies steps key fd count)
    (idle : ¬ step.subscribes key fd) (stays : ¬ step.ends key fd) :
    Tallies (steps ++ [step]) key fd count := by
  have same := subscribed_of_idle steps idle stays
  exact ⟨fun subscribed => tally.subscribed (same.mp subscribed),
    fun absent => tally.others fun subscribed => absent (same.mpr subscribed)⟩

/-- A slot that is held is held once, by a subscribed descriptor. -/
theorem Tallies.eq_one {count : ℕ} (tally : Tallies steps key fd count) (held : count ≠ 0) :
    count = 1 := by
  by_cases subscribed : Subscribed steps key fd
  · exact tally.subscribed subscribed
  · exact absurd (tally.others subscribed) held

end StepLemma

/-- **The invariant.** Every node's slots tally with the run that led to the table. -/
def HeldOnce (steps : List Step) (ht : HashTable) : Prop :=
  ∀ key : Key, ∀ node, ht.lookup key.1 = some node → ∀ fd, fd ≠ 0 →
    Tallies steps key fd (node.subscribersFds.held fd)

/-- The descriptor a call names is a real one. -/
def StoreOp.namesDescriptor : StoreOp → Prop
  | writeSubscription _ fd | deleteSubscription _ fd | disconnect fd => fd ≠ 0
  | _ => True

/-- A lookup in an updated map is at the written key, or as before. -/
theorem lookup_update_cases {ht table : HashTable} {written : Key} {new : Option KeyNode}
    (mapped : table.lookup = Function.update ht.lookup written.1 new) {key : Key} {node : KeyNode}
    (present : table.lookup key.1 = some node) :
    (key = written ∧ new = some node) ∨ (key ≠ written ∧ ht.lookup key.1 = some node) := by
  rw [mapped] at present
  by_cases same : key = written
  · subst same
    rw [Function.update_self] at present
    exact Or.inl ⟨rfl, present⟩
  · rw [Function.update_of_ne fun equal => same (Subtype.ext equal)] at present
    exact Or.inr ⟨same, present⟩

theorem KeyNode.held_exchange {node : KeyNode} {old : Fd} (new fd : Fd)
    (inside : old ∈ node.subscribersFds.fds) :
    (node.exchange old new).subscribersFds.held fd + (if old = fd then 1 else 0) =
      node.subscribersFds.held fd + (if new = fd then 1 else 0) := by
  have exchanged :
      (node.exchange old new).subscribersFds.fds = node.subscribersFds.fds.replace old new := by
    simp [KeyNode.exchange, Slots.exchange, inside]
  rw [Slots.held, exchanged]
  exact count_replace new fd inside

theorem KeyNode.exchange_of_not_mem {node : KeyNode} {old new : Fd}
    (outside : old ∉ node.subscribersFds.fds) : node.exchange old new = node := by
  simp [KeyNode.exchange, Slots.exchange, outside]

section Operations

variable {steps : List Step} {ht table : HashTable} {step : Step} {outcome : Outcome}

/-- A step that leaves the table and all subscriptions alone. -/
theorem HeldOnce.idle (held : HeldOnce steps ht) (idle : ∀ key fd, ¬ step.subscribes key fd)
    (stays : ∀ key fd, ¬ step.ends key fd) : HeldOnce (steps ++ [step]) ht :=
  fun key node found fd nonzero => (held key node found fd nonzero).of_idle (idle key fd)
    (stays key fd)

/-- A step that concerns one key has to keep the tally there. -/
theorem HeldOnce.update (held : HeldOnce steps ht) {written : Key} {new : Option KeyNode}
    (mapped : table.lookup = Function.update ht.lookup written.1 new)
    (elsewhere : ∀ key fd, key ≠ written → ¬ step.subscribes key fd ∧ ¬ step.ends key fd)
    (here : ∀ node, new = some node → ∀ fd, fd ≠ 0 →
      Tallies (steps ++ [step]) written fd (node.subscribersFds.held fd)) :
    HeldOnce (steps ++ [step]) table := by
  intro key node found fd nonzero
  rcases lookup_update_cases mapped found with ⟨rfl, new⟩ | ⟨different, old⟩
  · exact here node new fd nonzero
  · obtain ⟨idle, stays⟩ := elsewhere key fd different
    exact (held key node old fd nonzero).of_idle idle stays

theorem heldOnce_writePair (wf : ht.WellFormed) (held : HeldOnce steps ht) {written : Key}
    {value : CStr} (called : (StoreOp.writePair written value).exec ht = .ok outcome) :
    HeldOnce (steps ++ [⟨.writePair written value, ht, outcome⟩]) outcome.table := by
  have idle : ∀ outcome key fd,
      ¬ (Step.mk (.writePair written value) ht outcome).subscribes key fd :=
    fun _ _ _ opens => by cases opens.1
  cases present : ht.lookup written.1 with
  | none =>
    obtain ⟨table, call, _, mapped⟩ := writePair_absent wf written value present
    rw [StoreOp.exec, call] at called
    cases called
    refine held.update mapped
      (fun key fd different => ⟨idle _ key fd, fun ends => different ends.1.symm⟩) ?_
    intro node new fd nonzero
    cases new
    rw [Slots.held_empty nonzero]
    refine .of_ends (idle _ written fd) ⟨rfl, ?_⟩
    rw [HashTable.valueAt, present, Option.map_none]
  | some node₀ =>
    obtain ⟨table, call, _, mapped⟩ := writePair_present wf written value present
    rw [StoreOp.exec, call] at called
    cases called
    refine held.update mapped
      (fun key fd different => ⟨idle _ key fd, fun ends => different ends.1.symm⟩) ?_
    intro node new fd nonzero
    cases new
    refine (held written node₀ present fd nonzero).of_idle (idle _ written fd) fun ends => ?_
    have missing : ht.valueAt written = none := ends.2
    rw [HashTable.valueAt, present] at missing
    cases missing

theorem heldOnce_deletePair (wf : ht.WellFormed) (held : HeldOnce steps ht) {deleted : Key}
    (called : (StoreOp.deletePair deleted).exec ht = .ok outcome) :
    HeldOnce (steps ++ [⟨.deletePair deleted, ht, outcome⟩]) outcome.table := by
  have idle : ∀ outcome key fd, ¬ (Step.mk (.deletePair deleted) ht outcome).subscribes key fd :=
    fun _ _ _ opens => by cases opens.1
  cases present : ht.lookup deleted.1 with
  | none =>
    rw [StoreOp.exec, deletePair_absent deleted present] at called
    cases called
    exact held.idle (idle _) fun _ _ ends => ends
  | some node₀ =>
    obtain ⟨table, call, _, mapped⟩ := deletePair_present wf deleted present
    rw [StoreOp.exec, call] at called
    cases called
    refine held.update mapped (fun key fd _ => ⟨idle _ key fd, fun ends => ends⟩) ?_
    intro node new
    cases new

/-- The first empty slot goes to a descriptor that has none. -/
theorem Tallies.exchange_subscribed {key : Key} {node : KeyNode} {added fd : Fd}
    (tally : Tallies steps key fd (node.subscribersFds.held fd)) (nonzero : fd ≠ 0)
    (room : 0 ∈ node.subscribersFds.fds) (fresh : added ∉ node.subscribersFds.fds)
    (subscribes : ∀ other, step.subscribes key other ↔ other = added)
    (stays : ¬ step.ends key fd) :
    Tallies (steps ++ [step]) key fd ((node.exchange 0 added).subscribersFds.held fd) := by
  have moved := KeyNode.held_exchange added fd room
  rw [if_neg (Ne.symm nonzero)] at moved
  by_cases same : added = fd
  · subst same
    rw [if_pos rfl, Slots.held, Slots.held, List.count_eq_zero.mpr fresh] at moved
    rw [Slots.held, show List.count added _ = 1 from moved]
    exact .of_subscribes ((subscribes added).mpr rfl)
  · rw [if_neg same] at moved
    rw [show Slots.held _ fd = _ from moved]
    exact tally.of_idle (fun opens => same ((subscribes fd).mp opens).symm) stays

theorem heldOnce_writeSubscription (wf : ht.WellFormed) (held : HeldOnce steps ht)
    {subscribed : Key} {added : Fd}
    (called : (StoreOp.writeSubscription subscribed added).exec ht = .ok outcome)
    (single : ¬ (Step.mk (.writeSubscription subscribed added) ht outcome).repeatsSubscription) :
    HeldOnce (steps ++ [⟨.writeSubscription subscribed added, ht, outcome⟩]) outcome.table := by
  cases present : ht.lookup subscribed.1 with
  | none =>
    rw [StoreOp.exec, writeSubscription_absent subscribed added present] at called
    cases called
    refine held.idle (fun key fd opens => ?_) fun _ _ ends => ends
    cases opens.2
  | some node₀ =>
    obtain ⟨table, call, _, mapped⟩ := writeSubscription_present wf subscribed added present
    rw [StoreOp.exec, call] at called
    cases called
    refine held.update mapped (fun key fd different => ⟨fun opens => ?_, fun ends => ends⟩) ?_
    · cases opens.1
      exact different rfl
    intro node new fd nonzero
    cases new
    have tally := held subscribed node₀ present fd nonzero
    by_cases room : 0 ∈ node₀.subscribersFds.fds
    · -- Not a repetition: with a slot empty, the descriptor holds none yet.
      refine tally.exchange_subscribed nonzero room
        (fun inside => single ⟨subscribed, added, node₀, rfl, present, inside, room⟩)
        (fun other => ⟨fun opens => ?_, ?_⟩) fun ends => ends
      · cases opens.1
        rfl
      · rintro rfl
        exact ⟨rfl, by simp [room]⟩
    · rw [KeyNode.exchange_of_not_mem room]
      refine tally.of_idle (fun opens => ?_) fun ends => ends
      have code := opens.2
      simp [room] at code

/-- The slot of a descriptor that holds one is emptied. -/
theorem Tallies.exchange_unsubscribed {key : Key} {node : KeyNode} {removed fd : Fd}
    (tally : Tallies steps key fd (node.subscribersFds.held fd)) (nonzero : fd ≠ 0)
    (inside : removed ∈ node.subscribersFds.fds) (idle : ¬ step.subscribes key fd)
    (ends : step.ends key fd ↔ removed = fd) :
    Tallies (steps ++ [step]) key fd ((node.exchange removed 0).subscribersFds.held fd) := by
  have moved := KeyNode.held_exchange 0 fd inside
  rw [if_neg (show ¬ (0 : Fd) = fd from Ne.symm nonzero)] at moved
  by_cases same : removed = fd
  · subst same
    -- It held one slot, so emptying the first leaves none.
    have once := tally.eq_one fun zero => List.count_eq_zero.mp zero inside
    rw [if_pos rfl, once] at moved
    rw [show Slots.held _ removed = 0 by omega]
    exact .of_ends idle (ends.mpr rfl)
  · rw [if_neg same] at moved
    rw [show Slots.held _ fd = _ from moved]
    exact tally.of_idle idle fun ended => same (ends.mp ended)

theorem heldOnce_deleteSubscription (wf : ht.WellFormed) (held : HeldOnce steps ht)
    {unsubscribed : Key} {removed : Fd}
    (called : (StoreOp.deleteSubscription unsubscribed removed).exec ht = .ok outcome) :
    HeldOnce (steps ++ [⟨.deleteSubscription unsubscribed removed, ht, outcome⟩])
      outcome.table := by
  have idle : ∀ outcome key fd,
      ¬ (Step.mk (.deleteSubscription unsubscribed removed) ht outcome).subscribes key fd :=
    fun _ _ _ opens => by cases opens.1
  cases present : ht.lookup unsubscribed.1 with
  | none =>
    rw [StoreOp.exec, deleteSubscription_absent unsubscribed removed present] at called
    cases called
    refine held.idle (idle _) fun key fd ends => ?_
    cases ends.2.2
  | some node₀ =>
    obtain ⟨table, call, _, mapped⟩ := deleteSubscription_present wf unsubscribed removed present
    rw [StoreOp.exec, call] at called
    cases called
    refine held.update mapped
      (fun key fd different => ⟨idle _ key fd, fun ends => different ends.1.symm⟩) ?_
    intro node new fd nonzero
    cases new
    have tally := held unsubscribed node₀ present fd nonzero
    by_cases inside : removed ∈ node₀.subscribersFds.fds
    · exact tally.exchange_unsubscribed nonzero inside (idle _ unsubscribed fd)
        ⟨fun ends => ends.2.1, fun same => ⟨rfl, same, by simp [inside]⟩⟩
    · rw [KeyNode.exchange_of_not_mem inside]
      refine tally.of_idle (idle _ unsubscribed fd) fun ends => ?_
      have code := ends.2.2
      simp [inside] at code

end Operations

/-- **The step lemma.** A step that does not repeat a subscription keeps the invariant. -/
theorem heldOnce_step {steps : List Step} {ht : HashTable} (wf : ht.WellFormed)
    (held : HeldOnce steps ht) {op : StoreOp} {outcome : Outcome}
    (called : op.exec ht = .ok outcome)
    (single : ¬ (Step.mk op ht outcome).repeatsSubscription) :
    HeldOnce (steps ++ [⟨op, ht, outcome⟩]) outcome.table := by
  cases op with
  | writePair written value => exact heldOnce_writePair wf held called
  | deletePair deleted => exact heldOnce_deletePair wf held called
  | readPair read =>
    rw [StoreOp.exec, readPair_spec] at called
    cases called
    exact held.idle (fun _ _ opens => by cases opens.1) fun _ _ ends => ends
  | writeSubscription subscribed added =>
    exact heldOnce_writeSubscription wf held called single
  | deleteSubscription unsubscribed removed => exact heldOnce_deleteSubscription wf held called
  | disconnect gone =>
    cases called
    intro key node found fd nonzero
    rw [disconnect_lookup] at found
    obtain ⟨node₀, present, rfl⟩ := Option.map_eq_some_iff.mp found
    have idle : ∀ outcome, ¬ (Step.mk (.disconnect gone) ht outcome).subscribes key fd :=
      fun _ opens => by cases opens.1
    by_cases same : fd = gone
    · subst same
      rw [KeyNode.dropSubscriber, Slots.held_remove_self nonzero]
      exact .of_ends (idle _) rfl
    · rw [KeyNode.dropSubscriber, Slots.held_remove_of_ne nonzero same]
      exact (held key node₀ present fd nonzero).of_idle (idle _) fun ends => same ends.symm
  | disconnectAll =>
    cases called
    intro key node found fd nonzero
    rw [disconnectAll_lookup] at found
    obtain ⟨node₀, present, rfl⟩ := Option.map_eq_some_iff.mp found
    rw [KeyNode.dropSubscribers, Slots.held_empty nonzero]
    exact .of_ends (fun opens => by cases opens.1) trivial

/-! ### Runs -/

/-- The descriptors the calls of a run name are real ones. -/
def NamesDescriptors (steps : List Step) : Prop := ∀ step ∈ steps, step.op.namesDescriptor

/-- **The run lemma.** Without repeated subscriptions the slots tally at the end of every run. -/
theorem heldOnce_run {steps : List Step} {ht : HashTable} (run : Run createHashTable steps ht)
    (single : ∀ step ∈ steps, ¬ step.repeatsSubscription) : HeldOnce steps ht := by
  induction run with
  | nil =>
    intro key node present
    rw [createHashTable_lookup] at present
    cases present
  | @snoc earlierSteps middle op outcome earlier called ih =>
    have held := ih fun step member => single step (List.mem_append_left _ member)
    exact heldOnce_step earlier.wellFormed held called (single _ (by simp))

/-- The empty slot's descriptor is never subscribed. -/
theorem not_subscribed_zero {steps : List Step} (names : NamesDescriptors steps) (key : Key) :
    ¬ Subscribed steps key 0 := by
  rintro ⟨earlier, step, later, rfl, opens, _⟩
  have named := names step (by simp)
  rw [opens.1] at named
  exact named rfl

/-- Slots that tally are told exactly once. -/
theorem exactlyOnce_of_heldOnce {steps : List Step} {ht : HashTable}
    (names : NamesDescriptors steps)
    (held : HeldOnce steps ht) {key : Key} {node : KeyNode} (present : ht.lookup key.1 = some node)
    (text : CStr) :
    ExactlyOnce steps key text (notifySubscribers node.subscribersFds key.1 text) := by
  refine ⟨fun fd subscribed => ?_, fun fd absent => ?_, fun notification member => ?_⟩
  · have nonzero : fd ≠ 0 := fun zero => not_subscribed_zero names key (zero ▸ subscribed)
    rw [framesTo_notifySubscribers _ _ _ nonzero]
    exact (held key node present fd nonzero).subscribed subscribed
  · by_cases zero : fd = 0
    · rw [zero, framesTo_zero]
    · rw [framesTo_notifySubscribers _ _ _ zero]
      exact (held key node present fd zero).others absent
  · obtain ⟨fd, _, rfl⟩ := List.mem_map.mp member
    rfl

theorem exactlyOnceAt_of_heldOnce {steps : List Step} {ht : HashTable} (wf : ht.WellFormed)
    (names : NamesDescriptors steps) (held : HeldOnce steps ht) : ExactlyOnceAt steps ht := by
  intro key value
  cases present : ht.lookup key.1 with
  | none => exact absurd (by rw [HashTable.valueAt, present]; rfl) value
  | some node =>
    refine ⟨fun written code table sent called => ?_, fun code table sent called => ?_⟩
    · obtain ⟨table', called', _⟩ := writePair_present wf key written present
      cases called'.symm.trans called
      exact exactlyOnce_of_heldOnce names held present written
    · obtain ⟨table', called', _⟩ := deletePair_present wf key present
      cases called'.symm.trans called
      exact exactlyOnce_of_heldOnce names held present deletedText

/-- **A repeated subscription is told twice.** The descriptor held a slot, and takes another. -/
theorem not_exactlyOnceAt_of_repeats {steps : List Step} {ht : HashTable} (wf : ht.WellFormed)
    {op : StoreOp} {outcome : Outcome} (called : op.exec ht = .ok outcome)
    (names : op.namesDescriptor) (repeated : (Step.mk op ht outcome).repeatsSubscription) :
    ¬ ExactlyOnceAt (steps ++ [⟨op, ht, outcome⟩]) outcome.table := by
  obtain ⟨key, fd, node, rfl, present, inside, room⟩ := repeated
  have nonzero : fd ≠ 0 := names
  obtain ⟨table, call, kept, mapped⟩ := writeSubscription_present wf key fd present
  rw [StoreOp.exec, call] at called
  cases called
  have present' : table.lookup key.1 = some (node.exchange 0 fd) := by
    rw [mapped, Function.update_self]
  have twice : 1 < (node.exchange 0 fd).subscribersFds.held fd := by
    have moved := KeyNode.held_exchange fd fd room
    rw [if_neg (Ne.symm nonzero), if_pos rfl] at moved
    have once : 0 < node.subscribersFds.held fd := List.count_pos_iff.mpr inside
    omega
  intro exactly
  obtain ⟨table', removed, _⟩ := deletePair_present kept key present'
  have sent := (exactly key (by rw [HashTable.valueAt, present']; simp)).2 _ _ _ removed
  have atMost := sent.framesTo_le fd
  rw [framesTo_notifySubscribers _ _ _ nonzero] at atMost
  omega

/-! ### Calls of the store operations -/

/-- A client's notification descriptor. -/
abbrev ClientFd := { fd : Fd // fd ≠ 0 }

/-- A call of a store operation that writes, deletes or changes subscriptions. -/
inductive Call where
  | kvsWrite (pairs : List (Key × CStr))
  | kvsDelete (keys : List Key)
  | subscribe (key : Key) (fd : ClientFd)
  | unsubscribe (key : Key) (fd : ClientFd)
  | disconnect (fd : ClientFd)
  | disconnectAll
deriving DecidableEq

/-- Make the call. -/
def Call.exec : Call → Shared → Except Fault Shared
  | kvsWrite pairs, shared =>
    (Server.kvsWrite (pairs.map fun pair => (pair.1.1, pair.2)) shared).map fun result => result.2
  | kvsDelete keys, shared =>
    (Server.kvsDelete (keys.map Subtype.val) shared).map fun result => result.2.2
  | subscribe key fd, shared =>
    (Server.subscribe key.1 fd.1 shared.table).map fun result => ⟨result.2, shared.notified⟩
  | unsubscribe key fd, shared =>
    (Server.unsubscribe key.1 fd.1 shared.table).map fun result => ⟨result.2, shared.notified⟩
  | disconnect fd, shared => .ok ⟨(Server.disconnect fd.1 shared.table).2, shared.notified⟩
  | disconnectAll, shared => .ok ⟨(Server.disconnectAll shared.table).2, shared.notified⟩

/-- The table functions a call makes. -/
def Call.ops : Call → List StoreOp
  | kvsWrite pairs => pairs.map fun pair => .writePair pair.1 pair.2
  | kvsDelete keys => keys.map .deletePair
  | subscribe key fd => [.writeSubscription key fd.1]
  | unsubscribe key fd => [.deleteSubscription key fd.1]
  | disconnect fd => [.disconnect fd.1]
  | disconnectAll => [.disconnectAll]

/-- Make the table functions of a list, collecting the frames. -/
def runShared : List StoreOp → Shared → Except Fault Shared
  | [], shared => .ok shared
  | op :: ops, shared => do
    let outcome ← op.exec shared.table
    runShared ops ⟨outcome.table, shared.notified ++ outcome.notified⟩

theorem runShared_append (earlier later : List StoreOp) (shared : Shared) :
    runShared (earlier ++ later) shared = (runShared earlier shared).bind (runShared later) := by
  induction earlier generalizing shared with
  | nil => rfl
  | cons op earlier ih =>
    show (op.exec shared.table).bind _ = ((op.exec shared.table).bind _).bind _
    cases op.exec shared.table with
    | error fault => rfl
    | ok outcome => exact ih ⟨outcome.table, shared.notified ++ outcome.notified⟩

/-- A run's frames are the frames of its steps, in order. -/
theorem Run.runShared {start ht : HashTable} {steps : List Step} (run : Run start steps ht)
    (notified : List Notification) :
    runShared (steps.map Step.op) ⟨start, notified⟩ =
      .ok ⟨ht, notified ++ steps.flatMap fun step => step.outcome.notified⟩ := by
  induction run with
  | nil => simp [Server.runShared]
  | snoc earlier called ih =>
    rw [List.map_append, runShared_append, ih]
    show (StoreOp.exec _ _).bind _ = _
    rw [called]
    simp [Except.bind, Server.runShared]

theorem writePairs_eq (pairs : List (Key × CStr)) (shared : Shared) :
    writePairs (pairs.map fun pair => (pair.1.1, pair.2)) shared =
      runShared (pairs.map fun pair => .writePair pair.1 pair.2) shared := by
  induction pairs generalizing shared with
  | nil => rfl
  | cons pair pairs ih =>
    rw [List.map_cons, List.map_cons, writePairs, runShared, StoreOp.exec]
    cases writePair shared.table pair.1.1 pair.2 with
    | error fault => rfl
    | ok result => exact ih ⟨result.2.1, shared.notified ++ result.2.2⟩

theorem deleteKeys_eq (keys : List Key) (aux : Bool) (shared : Shared) :
    (deleteKeys (keys.map Subtype.val) aux shared).map (fun result => result.2.2) =
      runShared (keys.map .deletePair) shared := by
  induction keys generalizing aux shared with
  | nil => rfl
  | cons key keys ih =>
    rw [List.map_cons, List.map_cons, deleteKeys, runShared, StoreOp.exec]
    cases deletePair shared.table key.1 with
    | error fault => rfl
    | ok result =>
      obtain ⟨code, table, sent⟩ := result
      have next := ih (if code ≠ 0 then true else aux) ⟨table, shared.notified ++ sent⟩
      by_cases missing : code ≠ 0
      · rw [if_pos missing] at next
        refine Eq.trans ?_ next
        simp only [bind, Except.bind, if_pos missing]
        cases deleteKeys (keys.map Subtype.val) true ⟨table, shared.notified ++ sent⟩ <;> rfl
      · rw [if_neg missing] at next
        refine Eq.trans ?_ next
        simp only [bind, Except.bind, if_neg missing]

/-- **A call is the table functions it makes, one after another.** -/
theorem call_exec_eq (call : Call) (shared : Shared) :
    call.exec shared = runShared call.ops shared := by
  cases call with
  | kvsWrite pairs =>
    rw [Call.exec, kvsWrite, writePairs_eq, Call.ops]
    show Except.map _ ((runShared _ shared).bind _) = runShared _ shared
    cases runShared (pairs.map fun pair => .writePair pair.1 pair.2) shared <;> rfl
  | kvsDelete keys =>
    rw [Call.exec, kvsDelete]
    refine Eq.trans ?_ (deleteKeys_eq keys false shared)
    show Except.map _ ((deleteKeys _ false shared).bind _) = _
    cases deleteKeys (keys.map Subtype.val) false shared <;> rfl
  | subscribe key fd =>
    rw [Call.exec, Server.subscribe, Call.ops, runShared, StoreOp.exec]
    cases writeSubscription shared.table key.1 fd.1 with
    | error fault => rfl
    | ok result =>
      show _ = Except.ok (Shared.mk result.2 (shared.notified ++ []))
      rw [List.append_nil]
      rfl
  | unsubscribe key fd =>
    rw [Call.exec, Server.unsubscribe, Call.ops, runShared, StoreOp.exec]
    cases deleteSubscription shared.table key.1 fd.1 with
    | error fault => rfl
    | ok result =>
      show _ = Except.ok (Shared.mk result.2 (shared.notified ++ []))
      rw [List.append_nil]
      rfl
  | disconnect fd =>
    show _ = Except.ok (Shared.mk _ (shared.notified ++ []))
    rw [List.append_nil]
    rfl
  | disconnectAll =>
    show _ = Except.ok (Shared.mk _ (shared.notified ++ []))
    rw [List.append_nil]
    rfl

/-- Make the calls of a list, one after another. -/
def execCalls : List Call → Shared → Except Fault Shared
  | [], shared => .ok shared
  | call :: calls, shared => do
    let shared ← call.exec shared
    execCalls calls shared

/-- The table functions of calls. -/
def callOps (calls : List Call) : List StoreOp := calls.flatMap Call.ops

/-- Real descriptors only. -/
theorem callOps_namesDescriptor {calls : List Call} {op : StoreOp} (member : op ∈ callOps calls) :
    op.namesDescriptor := by
  obtain ⟨call, _, inside⟩ := List.mem_flatMap.mp member
  cases call with
  | kvsWrite pairs =>
    obtain ⟨pair, _, rfl⟩ := List.mem_map.mp inside
    trivial
  | kvsDelete keys =>
    obtain ⟨key, _, rfl⟩ := List.mem_map.mp inside
    trivial
  | subscribe key fd =>
    rw [List.mem_singleton.mp inside]
    exact fd.2
  | unsubscribe key fd =>
    rw [List.mem_singleton.mp inside]
    exact fd.2
  | disconnect fd =>
    rw [List.mem_singleton.mp inside]
    exact fd.2
  | disconnectAll =>
    rw [List.mem_singleton.mp inside]
    trivial

/-- These steps are a run of the calls from the empty table. -/
structure CallRun (calls : List Call) (steps : List Step) (ht : HashTable) : Prop where
  run : Run createHashTable steps ht
  ops : steps.map Step.op = callOps calls

theorem execCalls_eq (calls : List Call) (shared : Shared) :
    execCalls calls shared = runShared (callOps calls) shared := by
  induction calls generalizing shared with
  | nil => rfl
  | cons call calls ih =>
    rw [callOps, List.flatMap_cons, runShared_append, ← call_exec_eq]
    show (call.exec shared).bind _ = _
    cases call.exec shared with
    | error fault => rfl
    | ok shared => exact ih shared

/-- **A run of the calls is what making the calls gives**: its table, and its frames in order. -/
theorem CallRun.execCalls {calls : List Call} {steps : List Step} {ht : HashTable}
    (run : CallRun calls steps ht) :
    execCalls calls kvsInit = .ok ⟨ht, steps.flatMap fun step => step.outcome.notified⟩ := by
  rw [execCalls_eq, ← run.ops]
  exact run.run.runShared []

/-- At every table a run of the calls reaches, the next overwrite or removal of a key notifies
exactly the subscribed descriptors, once each. -/
def NotifiesExactlyOnce (calls : List Call) : Prop :=
  ∀ steps ht, CallRun calls steps ht → ∀ earlier later, steps = earlier ++ later →
    ∀ reached, Run createHashTable earlier reached → ExactlyOnceAt earlier reached

/-- No step of a run of the calls subscribes a descriptor to a key of which it holds a slot, while
another slot of the key is empty. -/
def NoRepeatedSubscription (calls : List Call) : Prop :=
  ∀ steps ht, CallRun calls steps ht → ∀ step ∈ steps, ¬ step.repeatsSubscription

theorem CallRun.names {calls : List Call} {steps : List Step} {ht : HashTable}
    (run : CallRun calls steps ht) : NamesDescriptors steps := fun _ member =>
  callOps_namesDescriptor (run.ops ▸ List.mem_map_of_mem member)

/-- A run that notifies exactly once at every table it reaches repeats no subscription. -/
theorem single_of_exactlyOnce {steps : List Step} {ht : HashTable}
    (run : Run createHashTable steps ht) (names : NamesDescriptors steps)
    (exactly : ∀ earlier later, steps = earlier ++ later →
      ∀ reached, Run createHashTable earlier reached → ExactlyOnceAt earlier reached) :
    ∀ step ∈ steps, ¬ step.repeatsSubscription := by
  induction run with
  | nil => exact fun _ member => absurd member List.not_mem_nil
  | @snoc earlierSteps middle op outcome earlier called ih =>
    intro step member
    rcases List.mem_append.mp member with member | member
    · refine ih (fun other inside => names other (List.mem_append_left _ inside)) ?_ step member
      rintro first later rfl reached run
      exact exactly first (later ++ [⟨op, middle, outcome⟩]) (List.append_assoc _ _ _) reached run
    · obtain rfl := List.mem_singleton.mp member
      intro repeated
      exact not_exactlyOnceAt_of_repeats earlier.wellFormed called
        (names ⟨op, middle, outcome⟩ (by simp)) repeated
        (exactly _ [] (List.append_nil _).symm _ (earlier.snoc called))

/-- **Exactly-once notification holds exactly of the runs without a repeated subscription.** -/
theorem notified_exactly_once (calls : List Call) :
    NotifiesExactlyOnce calls ↔ NoRepeatedSubscription calls := by
  constructor
  · exact fun exactly steps ht run =>
      single_of_exactlyOnce run.run run.names (exactly steps ht run)
  · rintro single steps ht run earlier later rfl reached reaches
    have names : NamesDescriptors earlier := fun step member =>
      run.names step (List.mem_append_left _ member)
    refine exactlyOnceAt_of_heldOnce reaches.wellFormed names (heldOnce_run reaches ?_)
    exact fun _ member => single _ ht run _ (List.mem_append_left _ member)

/-! ### A client that subscribes twice -/

/-- The key `a`. -/
def keyA : Key := ⟨⟨ascii ['a'], by decide⟩, by decide⟩

/-- A value `anna`. -/
def valueAnna : CStr := ⟨ascii ['a', 'n', 'n', 'a'], by decide⟩

/-- The key `anna`, in the bucket of the key `a`. -/
def keyAnna : Key := ⟨valueAnna, by decide⟩

/-- A client's descriptor. -/
def clientFd : ClientFd := ⟨9, by decide⟩

/-- One client subscribes to a present key and repeats the request. -/
def repeatedSubscription : List Call :=
  [.kvsWrite [(keyA, valueAnna)], .subscribe keyA clientFd, .subscribe keyA clientFd]

/-- After the repeated request one deletion sends the client two frames. -/
theorem repeatedSubscription_not_exactlyOnce : ¬ NotifiesExactlyOnce repeatedSubscription := by
  intro exactly
  obtain ⟨steps, ht, run, ops, _⟩ :=
    run_exists createHashTable_wellFormed (callOps repeatedSubscription)
  have ran : runOps (callOps repeatedSubscription) createHashTable = .ok ht := ops ▸ run.runOps
  have present : (runOps (callOps repeatedSubscription) createHashTable).map
      (fun ht => ht.valueAt keyA) = .ok (some valueAnna) := by rfl
  have told : (runOps (callOps repeatedSubscription) createHashTable).bind (fun ht =>
      (deletePair ht keyA.1).map fun result => framesTo clientFd.1 result.2.2) = .ok 2 := by rfl
  rw [ran] at present told
  obtain ⟨code, table, sent, called, two⟩ : ∃ code table sent,
      deletePair ht keyA.1 = .ok (code, table, sent) ∧ framesTo clientFd.1 sent = 2 := by
    cases outcome : deletePair ht keyA.1 with
    | error fault =>
      simp only [Except.bind, outcome] at told
      cases told
    | ok result =>
      simp only [Except.bind, outcome] at told
      exact ⟨result.1, result.2.1, result.2.2, rfl, Except.ok.inj told⟩
  have value : ht.valueAt keyA = some valueAnna := Except.ok.inj present
  have inside : ht.valueAt keyA ≠ none := by
    rw [value]
    exact Option.some_ne_none _
  have once := ((exactly steps ht ⟨run, ops⟩ steps [] (List.append_nil _).symm ht run keyA inside).2
    code table sent called).framesTo_le clientFd.1
  omega

end Kvs.Server
