/-
**The client's list parser (`client/parser.c`).**

`parse_list` reads the argument of SUBSCRIBE and UNSUBSCRIBE from the standard input, a list of keys
as the server's READ has them. `client/parser.c` has its own copies of `read_string` and `cleanup`,
with the text of the server's; the server's definitions stand for both.

The loop ends by the bracket or by the count. `output`, the code of the last delimiter, is `2`
after a bracket only: a full array is refused when another key was to follow, and accepted when the
list was closed. `parseList_exact` says that no other text is accepted and no such text refused.
-/

import Kvs.Job.Grammar

namespace Kvs.Client

open Scanner.Scan
open Server (Parse readString cleanupWith copyRow NonNul IsItem KeysLeft AcceptsExactly keysForm)

/-! ### The parser -/

/-- The loop of `parse_list`; `room` is `max_keys - num_keys`. None when the function returns `0`
inside the loop. -/
def parseListLoop (stringSize : ℕ) : ℕ → Int → List CStr → Parse (Option (Int × List CStr))
  | 0, output, keys => return some (output, keys)
  | room + 1, _, keys => do
    let (output, key) ← readString stringSize stringSize
    if output < 0 ∨ output = 1 then cleanupWith none
    else do
      let key ← copyRow key
      if output = 2 then return some (output, keys ++ [key])
      else parseListLoop stringSize room output (keys ++ [key])

/-- What follows the loop: nothing when the function has returned inside it. -/
def afterListLoop (maxKeys : ℕ) : Option (Int × List CStr) → Parse (List CStr)
  | none => return []
  | some (output, keys) =>
    if keys.length = maxKeys ∧ output ≠ 2 then cleanupWith []
    else do
      let ch ← read 1
      if ch = [newline] ∨ ch = [nul] then return keys else cleanupWith []

/-- `parse_list`: the keys stored, none when it returns `0`. -/
def parseList (maxKeys stringSize : ℕ) : Parse (List CStr) := do
  let ch ← read 1
  if ch ≠ ascii ['['] then cleanupWith []
  else do
    let outcome ← parseListLoop stringSize maxKeys 2 []
    afterListLoop maxKeys outcome

/-! ### The language it reads -/

/-- The loop stored keys, and stopped by the bracket or before the array was full. -/
def Closed (max : ℕ) (got : Option (Int × List CStr)) : Prop :=
  ∃ output keys, got = some (output, keys) ∧ ¬ (keys.length = max ∧ output ≠ 2)

theorem not_closed_none {max : ℕ} : ¬ Closed max none := by
  rintro ⟨output, keys, same, _⟩
  cases same

/-- The loop, entered with the code of a comma. -/
theorem reads_parseListLoop (room : ℕ) (earlier : List CStr) :
    Reads NonNul (parseListLoop maxStringSize room 0 earlier) (Closed (earlier.length + room))
      fun got text => ∃ keys, got = some (2, earlier ++ keys) ∧ KeysLeft room keys text := by
  induction room generalizing earlier with
  | zero =>
    refine Reads.congr (reads_refuse (gives_pure ?_)) fun got text _ _ => ?_
    · rintro ⟨output, keys, same, stopped⟩
      cases same
      exact stopped ⟨rfl, by decide⟩
    · constructor
      · exact False.elim
      · rintro ⟨keys, _, left⟩
        exact Server.not_keysLeft_zero left
  | succ room ih =>
    have more : ∀ key, Reads NonNul (parseListLoop maxStringSize room 0 (earlier ++ [key]))
        (Closed (earlier.length + (room + 1))) _ := fun key =>
      Server.length_stored earlier key room ▸ ih (earlier ++ [key])
    rw [parseListLoop]
    refine Reads.congr (Server.reads_listRound not_closed_none
      (fun output key => return some (output, earlier ++ [key]))
      (fun output key => parseListLoop maxStringSize room output (earlier ++ [key]))
      (fun key => reads_pure (some (2, earlier ++ [key]))) more) fun got text _ _ => ?_
    constructor
    · rintro ⟨key, tail, item, ⟨⟨rfl, rfl⟩, rfl⟩ | ⟨⟨keys, rfl, left⟩, rfl⟩⟩
      · exact ⟨[key], rfl, Server.keysLeft_succ.mpr ⟨key, item, .inl ⟨rfl, rfl⟩⟩⟩
      · exact ⟨key :: keys, by simp,
          Server.keysLeft_succ.mpr ⟨key, item, .inr ⟨_, _, left, rfl, rfl⟩⟩⟩
    · rintro ⟨keys, rfl, left⟩
      obtain ⟨key, item, ⟨rfl, rfl⟩ | ⟨keys, tail, fewer, rfl, rfl⟩⟩ :=
        Server.keysLeft_succ.mp left
      · exact ⟨key, [], item, .inl ⟨⟨rfl, rfl⟩, rfl⟩⟩
      · exact ⟨key, tail, item, .inr ⟨⟨keys, by simp, fewer⟩, rfl⟩⟩

/-- **What follows the loop** reads the newline behind a closed list. -/
theorem reads_afterListLoop {max : ℕ} {loop : Parse (Option (Int × List CStr))}
    {lang : List CStr → List Byte → Prop}
    (one : Reads NonNul loop (Closed max) fun got text => ∃ keys, got = some (2, keys) ∧
      lang keys text) :
    Reads NonNul (do let outcome ← loop; afterListLoop max outcome) (· ≠ []) fun got text =>
      ∃ tail, lang got tail ∧ text = tail ++ [newline] := by
  have following : ∀ (outcome : Option (Int × List CStr)) (head : List Byte), Closed max outcome →
      (∃ keys, outcome = some (2, keys) ∧ lang keys head) → (∀ token ∈ head, NonNul token) →
      Reads NonNul (afterListLoop max outcome) (· ≠ []) fun got tail =>
        outcome = some (2, got) ∧ tail = [newline] := by
    rintro _ _ _ ⟨keys, rfl, _⟩ _
    rw [afterListLoop, if_neg fun stopped => stopped.2 rfl]
    refine Reads.congr (Server.reads_newline keys) fun got tail _ _ => ?_
    simp [eq_comm]
  have failed : ∀ outcome : Option (Int × List CStr), ¬ Closed max outcome →
      Gives (afterListLoop max outcome) fun got => ¬ got ≠ [] := by
    intro outcome stopped
    cases outcome with
    | none => exact gives_pure fun different => different rfl
    | some outcome =>
      obtain ⟨output, keys⟩ := outcome
      rw [afterListLoop, if_pos (not_not.mp fun goes => stopped ⟨output, keys, rfl, goes⟩)]
      exact Server.gives_cleanupWith fun different => different rfl
  refine Reads.congr (reads_bind one following failed) fun got text _ _ => ?_
  constructor
  · rintro ⟨_, head, _, _, ⟨keys, rfl, isHead⟩, ⟨same, rfl⟩, rfl⟩
    cases same
    exact ⟨head, isHead, rfl⟩
  · rintro ⟨tail, isHead, rfl⟩
    exact ⟨some (2, got), tail, [newline], ⟨2, got, rfl, fun stopped => stopped.2 rfl⟩,
      ⟨got, rfl, isHead⟩, ⟨rfl, rfl⟩, rfl⟩

/-- **`parse_list`** reads a list of keys that fits the array. -/
theorem reads_parseList (room : ℕ) :
    Reads NonNul (parseList (room + 1) maxStringSize) (· ≠ []) fun keys text =>
      keys.length ≤ room + 1 ∧ (∀ key ∈ keys, IsItem key) ∧ text = keysForm keys := by
  have loop : Reads NonNul (parseListLoop maxStringSize (room + 1) 2 []) (Closed (room + 1)) _ :=
    (reads_parseListLoop (room + 1) []).weaken fun _ good => by simpa using good
  refine Reads.congr (Server.reads_expect (show '['.toUInt8 ≠ nul by decide) (· ≠ [])
    (fun different => different rfl) (reads_afterListLoop loop)) fun keys text nonempty _ => ?_
  constructor
  · rintro ⟨_, ⟨tail, left, rfl⟩, rfl⟩
    exact ⟨left.fits, left.items, by rw [Server.keysForm_eq, left.text]⟩
  · rintro ⟨fits, items, rfl⟩
    exact ⟨_, ⟨_, ⟨nonempty, fits, items, rfl⟩, rfl⟩, Server.keysForm_eq keys⟩

/-- Without room for a key none is stored. -/
theorem parseList_zero : Gives (parseList 0 maxStringSize) (· = []) := by
  refine gives_bind_any fun _ => gives_ite (Server.gives_cleanupWith rfl) ?_
  refine gives_bind (show Gives (parseListLoop maxStringSize 0 2 []) (· = some (2, [])) from
    gives_pure rfl) fun outcome same => ?_
  subst same
  exact gives_bind_any fun _ => gives_ite (gives_pure rfl) (Server.gives_cleanupWith rfl)

/-- **`parse_list` accepts exactly its grammar**, lists that fill the array included. -/
theorem parseList_exact (max : ℕ) (input : CStr) :
    AcceptsExactly (parseList max maxStringSize) IsItem keysForm max input := by
  have clean : ∀ byte ∈ input.bytes, NonNul byte := fun byte member same =>
    input.noNul (same ▸ member)
  refine Server.acceptsExactly_of_iff fun keys rest nonempty => ?_
  cases max with
  | zero =>
    constructor
    · rintro ⟨same, _⟩
      exact absurd (same.symm.trans (parseList_zero input.bytes)) nonempty
    · rintro ⟨fits, _⟩
      exact absurd (List.length_eq_zero_iff.mp (Nat.le_zero.mp fits)) nonempty
  | succ room =>
    rw [reads_parseList room input.bytes clean keys rest nonempty]
    constructor
    · rintro ⟨_, ⟨fits, items, rfl⟩, split⟩
      exact ⟨fits, items, split⟩
    · rintro ⟨fits, items, split⟩
      exact ⟨_, ⟨fits, items, rfl⟩, split⟩

end Kvs.Client
