/-
**The client's main loop (`client/main.c`).**

Once connected, `main` reads a command, serves it and reads the next one. It leaves the loop at a
DISCONNECT, or when a call does not get its response; at the end of its input it reads `EOC` for
ever.

* `main_settles` is the loop alone: on any input and any responses, when it is left and what it has
  written to the server by then.
* `main_session` is the loop against the server's session, each reading what the other writes.

A DELAY of more than `15` digits and a string of `40` bytes overrun a buffer of the parser. What a
smashed stack does is not part of the model: the loop makes no further progress there, and both
results are about inputs without such commands (`Fits`).
-/

import Kvs.Client.Agreement
import Kvs.Client.Commands

namespace Kvs.Client

open WhileLoop Server

/-! ### The loop -/

/-- What `main` holds between two commands. -/
structure MainState where
  /-- The standard input not read yet. -/
  input : List Byte
  client : Connection
  /-- The delays made, in milliseconds. -/
  delays : List ℕ

namespace MainState

/-- The loop goes on as long as `connected` is set, which a call that fails unsets. -/
def afterCall (state : MainState) (call : Int × Connection) : MainState ⊕ MainState :=
  let state := { state with client := call.2 }
  if call.1 ≠ 0 then .inr state else .inl state

/-- The `switch` of `main` on a command with its arguments. -/
def perform (state : MainState) : Request → MainState ⊕ MainState
  | .disconnect => .inr { state with client := (kvsDisconnect state.client).2 }
  | .subscribe key => state.afterCall (kvsSubscribe key state.client)
  | .unsubscribe key => state.afterCall (kvsUnsubscribe key state.client)
  | .delay ms => .inl (if 0 < ms then { state with delays := state.delays ++ [ms] } else state)
  | .invalid => .inl state
  | .empty => .inl state

/-- One round of the loop; at `EOC`, and where the parser overran a buffer, it does nothing. -/
def round (garbage : List Byte) (state : MainState) : MainState ⊕ MainState :=
  let next := nextRequest garbage state.input
  if next.overflow then .inl state
  else
    let state := { state with input := next.rest }
    match next.val with
    | none => .inl state
    | some request => state.perform request

end MainState

/-! ### What it asks the server for -/

/-- The delay of a DELAY that waits. -/
def Request.wait : Request → Option ℕ
  | .delay ms => if 0 < ms then some ms else none
  | _ => none

/-- The request calls the server. -/
def Request.Calls (request : Request) : Prop := request = .disconnect ∨ request.key.isSome

instance : DecidablePred Request.Calls := fun _ => inferInstanceAs (Decidable (_ ∨ _))

/-- The bytes both calls for a key write. -/
def keyFrame (key : CStr) : List Byte :=
  getCodeString .subscribe :: strncpy (maxStringSize + 1) key

/-- What a request writes to the server. -/
def Request.frame : Request → List Byte
  | .disconnect => [getCodeString .disconnect]
  | .subscribe key | .unsubscribe key => keyFrame key
  | _ => []

/-- The requests up to the first DISCONNECT. -/
def untilDisconnect : List Request → List Request
  | [] => []
  | request :: requests =>
    if request = .disconnect then [request] else request :: untilDisconnect requests

/-- The requests `main` comes to when every call is answered. -/
def asked (garbage input : List Byte) : List Request := untilDisconnect (requests garbage input)

/-- The calls among them. -/
def calledFor (garbage input : List Byte) : List Request :=
  (asked garbage input).filter (·.Calls)

/-- No command up to the first DISCONNECT overruns a buffer of the parser. -/
inductive Fits (garbage : List Byte) : List Byte → Prop where
  | eoc : Fits garbage []
  | last {input : List Byte} (inside : (nextRequest garbage input).overflow = false)
      (next : (nextRequest garbage input).val = some .disconnect) : Fits garbage input
  | command {input : List Byte} (inside : (nextRequest garbage input).overflow = false)
      (later : Fits garbage (nextRequest garbage input).rest) : Fits garbage input

/-- The bytes written so far, in the loop or behind it. -/
def sentSoFar (state : MainState ⊕ MainState) : List Byte :=
  state.elim (·.client.requests.sent) (·.client.requests.sent)

/-! ### One round -/

variable {garbage : List Byte} {state : MainState}

theorem round_eoc (ended : state.input = []) : state.round garbage = .inl state := by
  obtain ⟨input, client, delays⟩ := state
  subst ended
  rfl

theorem Fits.inside {input : List Byte} (fits : Fits garbage input) :
    (nextRequest garbage input).overflow = false := by
  cases fits with
  | eoc => rfl
  | last inside => exact inside
  | command inside => exact inside

/-- What follows a command that is no DISCONNECT. -/
theorem Fits.later {input : List Byte} (fits : Fits garbage input) (nonempty : input ≠ [])
    (goesOn : (nextRequest garbage input).val ≠ some .disconnect) :
    Fits garbage (nextRequest garbage input).rest := by
  cases fits with
  | eoc => exact absurd rfl nonempty
  | last _ next => exact absurd next goesOn
  | command _ later => exact later

theorem round_request {request : Request} (fits : Fits garbage state.input)
    (next : (nextRequest garbage state.input).val = some request) :
    state.round garbage =
      { state with input := (nextRequest garbage state.input).rest }.perform request := by
  simp only [MainState.round, fits.inside, next, Bool.false_eq_true, if_false]

theorem perform_key {request : Request} {key : CStr} (named : request.key = some key) :
    state.perform request = state.afterCall (Client.request (keyFrame key) state.client) := by
  cases request with
  | subscribe => cases named; rfl
  | unsubscribe => cases named; rfl
  | _ => cases named

/-- **A call for a key** writes its frame, and `main` goes on when its response is there. -/
theorem afterCall_request (healthy : state.client.Healthy) (buffer : List Byte) :
    ∃ client : Connection, client.Healthy ∧
      client.requests.sent = state.client.requests.sent ++ buffer ∧
      (2 ≤ state.client.responses.bytes.length →
        client.responses.bytes = state.client.responses.bytes.drop 2 ∧
        state.afterCall (Client.request buffer state.client) = .inl { state with client }) ∧
      (state.client.responses.bytes.length < 2 →
        state.afterCall (Client.request buffer state.client) = .inr { state with client }) := by
  obtain ⟨healthy', sent, received⟩ := request_healthy healthy buffer
  refine ⟨_, healthy', sent, fun enough => ⟨(received enough).1, ?_⟩, fun short => ?_⟩
  · rw [MainState.afterCall, request_code healthy, if_pos enough]
    rfl
  · rw [MainState.afterCall, request_code healthy, if_neg (not_le.mpr short)]
    rfl

/-- Any other request but DISCONNECT leaves the server alone. -/
theorem perform_local {request : Request} (silent : ¬ request.Calls) :
    state.perform request =
      .inl { state with delays := state.delays ++ request.wait.toList } := by
  cases request with
  | disconnect => exact absurd (.inl rfl) silent
  | subscribe => exact absurd (.inr rfl) silent
  | unsubscribe => exact absurd (.inr rfl) silent
  | delay ms =>
    rw [MainState.perform, Request.wait]
    split
    · rfl
    · rw [Option.toList_none, List.append_nil]
  | empty =>
    show Sum.inl state = .inl { state with delays := state.delays ++ [] }
    rw [List.append_nil]
  | invalid =>
    show Sum.inl state = .inl { state with delays := state.delays ++ [] }
    rw [List.append_nil]

/-! ### The loop on any input -/

section Step

variable {input : List Byte} {request : Request}

/-- The next command and what is asked for behind it. -/
theorem asked_step (next : (nextRequest garbage input).val = some request)
    (different : request ≠ .disconnect) :
    asked garbage input = request :: asked garbage (nextRequest garbage input).rest := by
  rw [asked, requests_step next rfl, untilDisconnect, if_neg different]
  rfl

theorem calledFor_disconnect (next : (nextRequest garbage input).val = some .disconnect) :
    calledFor garbage input = [.disconnect] := by
  rw [calledFor, asked, requests_step next rfl, untilDisconnect, if_pos rfl]
  rfl

theorem calledFor_key (next : (nextRequest garbage input).val = some request) {key : CStr}
    (named : request.key = some key) :
    calledFor garbage input = request :: calledFor garbage (nextRequest garbage input).rest := by
  have different : request ≠ .disconnect := by
    rintro rfl
    cases named
  have calls : request.Calls := .inr (by rw [named]; rfl)
  rw [calledFor, asked_step next different, List.filter_cons_of_pos (by simpa using calls)]
  rfl

theorem calledFor_local (next : (nextRequest garbage input).val = some request)
    (silent : ¬ request.Calls) :
    calledFor garbage input = calledFor garbage (nextRequest garbage input).rest := by
  rw [calledFor, asked_step next fun same => silent (.inl same),
    List.filter_cons_of_neg (by simpa using silent)]
  rfl

end Step

/-- What the loop does on its input and its responses. -/
structure Settled (garbage : List Byte) (state : MainState) : Prop where
  /-- It is left at a DISCONNECT, or at a call that finds no response. -/
  returns : (∃ final, Returns (MainState.round garbage) state final) ↔
    .disconnect ∈ requests garbage state.input ∨
      state.client.responses.bytes.length / 2 < (calledFor garbage state.input).length
  /-- It writes the calls asked for, up to the first that finds no response. -/
  sent : Settles (MainState.round garbage) state sentSoFar (state.client.requests.sent ++
    ((calledFor garbage state.input).take
      (state.client.responses.bytes.length / 2 + 1)).flatMap Request.frame)

/-- At the end of the input it reads `EOC` for ever. -/
theorem settled_eoc (ended : state.input = []) : Settled garbage state := by
  have stay : ∀ same, same = state →
      ∃ next, same.round garbage = .inl next ∧ next = state := by
    rintro _ rfl
    exact ⟨_, round_eoc ended, rfl⟩
  have never : Diverges (MainState.round garbage) state :=
    diverges_of_invariant (· = state) stay rfl
  have nothing : calledFor garbage state.input = [] := by
    rw [ended]
    rfl
  constructor
  · rw [nothing, ended]
    constructor
    · rintro ⟨final, left⟩
      exact absurd left (never.not_returns final)
    · rintro (member | fewer)
      · exact absurd member List.not_mem_nil
      · exact absurd fewer (Nat.not_lt_zero _)
  · rw [nothing, List.take_nil, List.flatMap_nil, List.append_nil]
    exact settles_of_invariant (· = state) (fun _ same => by rw [same]; rfl)
      (fun same isState => .inl (stay same isState)) rfl

section Request

variable {request : Request} (fits : Fits garbage state.input)
  (next : (nextRequest garbage state.input).val = some request)

include next

theorem mem_requests_step :
    .disconnect ∈ requests garbage state.input ↔
      request = .disconnect ∨
        .disconnect ∈ requests garbage (nextRequest garbage state.input).rest := by
  rw [requests_step next rfl, List.mem_cons, eq_comm]

include fits

/-- A DISCONNECT is its last request, answered or not. -/
theorem settled_disconnect (healthy : state.client.Healthy) (last : request = .disconnect) :
    Settled garbage state := by
  subst last
  have left : Returns (MainState.round garbage) state _ :=
    returns_of_inr (round_request fits next)
  constructor
  · exact ⟨fun _ => .inl ((mem_requests_step next).mpr (.inl rfl)), fun _ => ⟨_, left⟩⟩
  · rw [calledFor_disconnect next, List.take_succ_cons, List.take_nil, List.flatMap_singleton]
    have written := left.settles sentSoFar
    rwa [sentSoFar, Sum.elim_inr, kvsDisconnect, (request_healthy healthy _).2.1] at written

/-- A request that does not call the server. -/
theorem settled_local (silent : ¬ request.Calls)
    (later : ∀ delays, Settled garbage
      ⟨(nextRequest garbage state.input).rest, state.client, delays⟩) :
    Settled garbage state := by
  have round := round_request fits next
  rw [perform_local silent] at round
  have reaches : Reaches (MainState.round garbage) state _ := .single round
  obtain ⟨returns, sent⟩ := later (state.delays ++ request.wait.toList)
  have different : request ≠ .disconnect := fun same => silent (.inl same)
  constructor
  · rw [mem_requests_step next, calledFor_local next silent, or_iff_right different, ← returns]
    exact exists_congr fun final => reaches_returns reaches
  · rw [calledFor_local next silent]
    exact (reaches_settles reaches).mpr sent

/-- A call for a key. -/
theorem settled_key (healthy : state.client.Healthy) {key : CStr}
    (named : request.key = some key)
    (later : ∀ client : Connection, client.Healthy → Settled garbage
      ⟨(nextRequest garbage state.input).rest, client, state.delays⟩) :
    Settled garbage state := by
  have round := round_request fits next
  rw [perform_key named] at round
  let entered : MainState := { state with input := (nextRequest garbage state.input).rest }
  have ready : entered.client.Healthy := healthy
  obtain ⟨client, healthy', sent, goesOn, stops⟩ := afterCall_request ready (keyFrame key)
  have frame : request.frame = keyFrame key := by
    cases request with
    | subscribe => cases named; rfl
    | unsubscribe => cases named; rfl
    | _ => cases named
  have different : request ≠ .disconnect := by
    rintro rfl
    cases named
  by_cases enough : 2 ≤ state.client.responses.bytes.length
  · obtain ⟨rest, same⟩ := goesOn enough
    have reaches : Reaches (MainState.round garbage) state _ := .single (round.trans same)
    obtain ⟨returns, written⟩ := later client healthy'
    have half : state.client.responses.bytes.length / 2 =
        client.responses.bytes.length / 2 + 1 := by
      rw [rest, List.length_drop]
      show _ = (state.client.responses.bytes.length - 2) / 2 + 1
      omega
    constructor
    · rw [mem_requests_step next, calledFor_key next named, or_iff_right different, half,
        List.length_cons, Nat.add_lt_add_iff_right, ← returns]
      exact exists_congr fun final => reaches_returns reaches
    · rw [calledFor_key next named, half, List.take_succ_cons, List.flatMap_cons, frame,
        ← List.append_assoc, ← sent]
      exact (reaches_settles reaches).mpr written
  · have left : Returns (MainState.round garbage) state _ :=
      returns_of_inr (round.trans (stops (not_le.mp enough)))
    have half : state.client.responses.bytes.length / 2 = 0 := by omega
    constructor
    · rw [half, calledFor_key next named]
      exact ⟨fun _ => .inr (Nat.succ_pos _), fun _ => ⟨_, left⟩⟩
    · rw [half, calledFor_key next named, List.take_succ_cons, List.take_zero,
        List.flatMap_singleton, frame, ← sent]
      exact left.settles sentSoFar

end Request

/-- **The main loop** on any input whose commands overrun no buffer, with any number of responses to
come. -/
theorem main_settles (garbage : List Byte) (healthy : state.client.Healthy)
    (fits : Fits garbage state.input) : Settled garbage state := by
  induction bytes : state.input.length using Nat.strong_induction_on generalizing state with
  | _ size ih =>
    by_cases ended : state.input = []
    · exact settled_eoc ended
    obtain ⟨request, next, shorter⟩ := nextRequest_progress garbage ended
    rw [bytes] at shorter
    by_cases last : request = .disconnect
    · exact settled_disconnect fits next healthy last
    have fitsLater := fits.later ended (by rw [next]; simpa using last)
    have later : ∀ client : Connection, client.Healthy → ∀ delays,
        Settled garbage ⟨(nextRequest garbage state.input).rest, client, delays⟩ :=
      fun client healthy delays => ih _ shorter healthy fitsLater rfl
    by_cases keyed : request.key.isSome
    · obtain ⟨key, named⟩ := Option.isSome_iff_exists.mp keyed
      exact settled_key fits next healthy named fun client healthy => later client healthy _
    · exact settled_local fits next (by rintro (same | some); exacts [last same, keyed some])
        (later state.client healthy)

/-- `SUBSCRIBE [a]` on its line. -/
def subscribeLine : List Byte :=
  ascii ['S', 'U', 'B', 'S', 'C', 'R', 'I', 'B', 'E', ' ', '[', 'a', ']', '\n']

/-- Without a response the loop is left there, its request written. -/
theorem main_settles_unanswered :
    let state : MainState := ⟨subscribeLine, (ClientStart.mk [] [] .zero).connection [], []⟩
    (∃ final, Returns (MainState.round []) state final) ∧
      Settles (MainState.round []) state sentSoFar (keyFrame ⟨ascii ['a'], by decide⟩) := by
  intro state
  have ready : state.client.Healthy := ClientStart.healthy _ _
  have fits : Fits [] state.input := .command (by decide) (by
    rw [show (nextRequest [] state.input).rest = [] by decide]
    exact .eoc)
  obtain ⟨returns, sent⟩ := main_settles [] ready fits
  have called : calledFor [] state.input = [.subscribe ⟨ascii ['a'], by decide⟩] := by decide
  rw [called, List.take_of_length_le (by decide), List.flatMap_singleton] at sent
  exact ⟨returns.mpr (.inr (by decide)), sent⟩

/-! ### The loop against the session -/

/-- The keys asked for, in order. -/
def askedKeys (garbage input : List Byte) : List CStr :=
  (asked garbage input).filterMap Request.key

/-- The delays asked for. -/
def askedDelays (garbage input : List Byte) : List ℕ :=
  (asked garbage input).filterMap Request.wait

/-- The request of a call. -/
def ApiCall.request : ApiCall → Request
  | subscribe key => .subscribe key.key
  | unsubscribe key => .unsubscribe key.key

theorem request_named (call : ApiCall) : call.request.key = some call.key.key := by
  cases call <;> rfl

theorem filterMap_key_calledFor (garbage input : List Byte) :
    (calledFor garbage input).filterMap Request.key = askedKeys garbage input := by
  rw [calledFor, askedKeys, List.filterMap_filter]
  refine List.filterMap_congr fun request _ => ?_
  cases request <;> rfl

/-- A DISCONNECT ends what is asked for. -/
theorem untilDisconnect_eq {requests : List Request} (disconnects : .disconnect ∈ requests) :
    ∃ front, untilDisconnect requests = front ++ [.disconnect] ∧ .disconnect ∉ front ∧
      ∀ request ∈ front, request ∈ requests := by
  induction requests with
  | nil => exact absurd disconnects List.not_mem_nil
  | cons request requests ih =>
    by_cases last : request = .disconnect
    · refine ⟨[], ?_, List.not_mem_nil, fun _ member => absurd member List.not_mem_nil⟩
      rw [untilDisconnect, if_pos last, last]
      rfl
    · obtain ⟨front, split, first, inside⟩ :=
        ih ((List.mem_cons.mp disconnects).resolve_left fun same => last same.symm)
      refine ⟨request :: front, ?_, ?_, ?_⟩
      · rw [untilDisconnect, if_neg last, split]
        rfl
      · exact fun member => (List.mem_cons.mp member).elim (fun same => last same.symm) first
      · exact List.forall_mem_cons.mpr ⟨List.mem_cons_self,
          fun other member => List.mem_cons_of_mem _ (inside other member)⟩

/-- **The calls of an input** with a DISCONNECT whose keys have buckets. -/
theorem calledFor_calls {input : List Byte} (disconnects : .disconnect ∈ requests garbage input)
    (alnum : ∀ key ∈ askedKeys garbage input, startsAlnum key) :
    ∃ calls : List ApiCall,
      calledFor garbage input = calls.map ApiCall.request ++ [.disconnect] := by
  obtain ⟨front, split, first, inside⟩ := untilDisconnect_eq disconnects
  have isCall : ∀ request ∈ front.filter fun request => request.Calls,
      request ∈ Set.range ApiCall.request := by
    intro request member
    obtain ⟨member, calls⟩ := List.mem_filter.mp member
    have different : request ≠ .disconnect := fun same => first (same ▸ member)
    obtain ⟨key, named⟩ := Option.isSome_iff_exists.mp
      ((of_decide_eq_true calls).resolve_left different)
    have short := requests_short garbage input request (inside request member) key named
    have start := alnum key (List.mem_filterMap.mpr
      ⟨request, by rw [asked, split]; exact List.mem_append_left _ member, named⟩)
    cases request with
    | subscribe => cases named; exact ⟨.subscribe ⟨key, short, start⟩, rfl⟩
    | unsubscribe => cases named; exact ⟨.unsubscribe ⟨key, short, start⟩, rfl⟩
    | _ => cases named
  obtain ⟨calls, same⟩ : (front.filter fun request => request.Calls) ∈
      Set.range (List.map ApiCall.request) := by
    rw [Set.range_list_map]
    exact isCall
  refine ⟨calls, ?_⟩
  rw [calledFor, asked, split, List.filter_append, same]
  rfl

theorem askedDelays_step {input : List Byte} {request : Request}
    (next : (nextRequest garbage input).val = some request) (different : request ≠ .disconnect) :
    askedDelays garbage input =
      request.wait.toList ++ askedDelays garbage (nextRequest garbage input).rest := by
  rw [askedDelays, asked_step next different, List.filterMap_cons]
  cases request.wait <;> rfl

theorem askedDelays_disconnect {input : List Byte}
    (next : (nextRequest garbage input).val = some .disconnect) :
    askedDelays garbage input = [] := by
  rw [askedDelays, asked, requests_step next rfl, untilDisconnect, if_pos rfl]
  rfl

/-- A call whose response is there, as `main` makes it. -/
def MainState.afterMake (state : MainState) (input : List Byte) (call : ApiCall) : MainState :=
  ⟨input, (call.make state.client).2, state.delays⟩

theorem round_call (healthy : state.client.Healthy) (inside : Fits garbage state.input)
    {call : ApiCall}
    (next : (nextRequest garbage state.input).val = some call.request)
    (fits : 2 ≤ state.client.responses.bytes.length) :
    state.round garbage =
        .inl (state.afterMake (nextRequest garbage state.input).rest call) ∧
      (state.afterMake (nextRequest garbage state.input).rest call).client.Healthy ∧
      (state.afterMake (nextRequest garbage state.input).rest call).client.responses.bytes =
        state.client.responses.bytes.drop 2 := by
  obtain ⟨healthy', _, received⟩ := request_healthy healthy (sentFrame call.key).bytes
  have code := request_code healthy (sentFrame call.key).bytes
  rw [if_pos fits, ← make_eq] at code
  rw [← make_eq] at healthy' received
  refine ⟨?_, healthy', (received fits).1⟩
  rw [round_request inside next, perform_key (request_named call)]
  show MainState.afterCall _ (Client.request (sentFrame call.key).bytes state.client) = _
  rw [← make_eq, MainState.afterCall, if_neg (not_not.mpr code)]
  rfl

/-- **The loop makes these calls**, when their responses are there. -/
theorem main_runCalls (healthy : state.client.Healthy) (fits : Fits garbage state.input)
    {calls : List ApiCall}
    (called : calledFor garbage state.input = calls.map ApiCall.request ++ [.disconnect])
    (enough : 2 * calls.length ≤ state.client.responses.bytes.length) :
    ∃ final, Returns (MainState.round garbage) state final ∧
      final.client = runCalls calls state.client ∧
      final.delays = state.delays ++ askedDelays garbage state.input := by
  induction bytes : state.input.length using Nat.strong_induction_on generalizing state calls with
  | _ size ih =>
    by_cases ended : state.input = []
    · rw [ended] at called
      exact absurd called.symm (List.append_ne_nil_of_right_ne_nil _ (List.cons_ne_nil _ _))
    obtain ⟨request, next, shorter⟩ := nextRequest_progress garbage ended
    rw [bytes] at shorter
    have round := round_request fits next
    by_cases last : request = .disconnect
    · subst last
      rw [calledFor_disconnect next, List.self_eq_append_left, List.map_eq_nil_iff] at called
      subst called
      refine ⟨_, returns_of_inr round, rfl, ?_⟩
      rw [askedDelays_disconnect next, List.append_nil]
    have fitsLater := fits.later ended (by rw [next]; simpa using last)
    rw [askedDelays_step next last]
    by_cases keyed : request.key.isSome
    · obtain ⟨key, named⟩ := Option.isSome_iff_exists.mp keyed
      rw [calledFor_key next named] at called
      cases calls with
      | nil => exact absurd (List.cons.inj called).1 last
      | cons call calls =>
        obtain ⟨same, called⟩ := List.cons.inj called
        rw [List.length_cons] at enough
        obtain ⟨goesOn, healthyNext, rest⟩ := round_call healthy fits (same ▸ next) (by omega)
        obtain ⟨final, left, client, delays⟩ := ih _ shorter healthyNext fitsLater called
          (by rw [rest, List.length_drop]; omega) rfl
        refine ⟨final, (reaches_returns (.single goesOn)).mpr left, client, ?_⟩
        have noDelay : request.wait = none := by
          rw [same]
          cases call <;> rfl
        rw [delays, noDelay]
        rfl
    · have silent : ¬ request.Calls := by
        rintro (same | some)
        exacts [last same, keyed some]
      rw [perform_local silent] at round
      rw [calledFor_local next silent] at called
      let middle : MainState := ⟨(nextRequest garbage state.input).rest, state.client,
        state.delays ++ request.wait.toList⟩
      have ready : middle.client.Healthy := healthy
      obtain ⟨final, left, client, delays⟩ := ih _ shorter ready fitsLater called enough rfl
      refine ⟨final, (reaches_returns (.single round)).mpr left, client, ?_⟩
      rw [delays, List.append_assoc]

theorem calledFor_keys {input : List Byte} {calls : List ApiCall}
    (called : calledFor garbage input = calls.map ApiCall.request ++ [.disconnect]) :
    askedKeys garbage input = calls.map fun call => call.key.key := by
  rw [← filterMap_key_calledFor, called, List.filterMap_append, List.filterMap_map]
  have named : Request.key ∘ ApiCall.request = some ∘ fun call => call.key.key :=
    funext request_named
  rw [named, List.filterMap_eq_map, List.filterMap_cons_none rfl, List.filterMap_nil,
    List.append_nil]

/-- **A client and its session**, each reading what the other writes. On an input with a DISCONNECT
whose commands overrun no buffer and whose keys all have buckets `main` leaves its loop and the
session ends; the session has made one subscription for every SUBSCRIBE and every UNSUBSCRIBE and
then a disconnect, in order, and the client has printed the responses to them. -/
theorem main_session (place : ServedPlace) (start : SessionStart) (clientStart : ClientStart)
    (garbage input : List Byte) (fits : Fits garbage input)
    (disconnects : .disconnect ∈ requests garbage input)
    (alnum : ∀ key ∈ askedKeys garbage input, startsAlnum key) :
    ∃ (final : MainState) (session : Session),
      Returns (MainState.round garbage)
        ⟨input, clientStart.connection session.responses.sent, []⟩ final ∧
      Returns (Session.requestRound place.toSessionPlace)
        (start.session final.client.requests.sent) (.returned session) ∧
      session.performed.map Prod.fst =
        (askedKeys garbage input).map (.onKey .subscribe) ++ [.disconnect] ∧
      final.client.returned = session.performed.map response ∧
      final.delays = askedDelays garbage input := by
  obtain ⟨calls, called⟩ := calledFor_calls disconnects alnum
  obtain ⟨results, session, returns, performed, sentOps, sent⟩ :=
    agreement_served place start clientStart calls []
  have each : results.length = calls.length + 1 := by
    have lengths := congrArg List.length sentOps
    rwa [List.length_map, Client.sentOps, List.length_append, List.length_map] at lengths
  let entered : MainState := ⟨input, clientStart.connection session.responses.sent, []⟩
  have ready : entered.client.Healthy := clientStart.healthy _
  have enough : 2 * calls.length ≤ entered.client.responses.bytes.length := by
    have two : ∀ result ∈ results, (response result).length = 2 := fun _ _ => rfl
    show _ ≤ session.responses.sent.length
    rw [sent, List.length_flatMap, List.map_congr_left two, List.map_const', List.sum_replicate,
      each, smul_eq_mul]
    omega
  obtain ⟨final, left, client, delays⟩ := main_runCalls ready fits called enough
  refine ⟨final, session, left, ?_, ?_, ?_, ?_⟩
  · rw [client, runCalls_sent ready]
    rwa [runCalls_sent (clientStart.healthy _)] at returns
  · rw [performed, sentOps, Client.sentOps, calledFor_keys called, List.map_map]
    rfl
  · rw [client, runCalls_returned ready calls each sent, performed]
    rfl
  · rw [delays]
    rfl

/-- `SUBSCRIBE [a]` and `DISCONNECT`. -/
theorem main_session_subscribes : ∃ (final : MainState) (session : Session),
    Returns (MainState.round [])
      ⟨subscribeLine ++ ScriptLine.disconnect.text,
        (ClientStart.mk [] [] .zero).connection session.responses.sent, []⟩ final ∧
    session.performed.map Prod.fst =
      [.onKey .subscribe ⟨ascii ['a'], by decide⟩, .disconnect] ∧
    final.client.returned = session.performed.map response := by
  obtain ⟨final, session, left, _, performed, returned, _⟩ :=
    main_session freshPlace freshStart ⟨[], [], .zero⟩ []
      (subscribeLine ++ ScriptLine.disconnect.text)
      (.command (by decide) (.last (by decide) (by decide))) (by decide) (by decide)
  exact ⟨final, session, left, performed, returned⟩

end Kvs.Client
