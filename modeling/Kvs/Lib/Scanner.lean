/-
**Scanners: programs that read a list of tokens from the front.**

A scan takes tokens off the front of its input, with no push-back. Two marks are kept beside its
value: `hitEnd`, a read came back with fewer tokens than it asked for; and `overflow`, a token was
stored outside the buffer it was meant for. The marks are never read by a scan.

`Regular` is what every program made of the primitives satisfies:

* it leaves a suffix of its input,
* it leaves nothing once a read came back short,
* as long as no read came back short, tokens appended to the input change nothing but the rest;
* tokens it did not reach can be taken away again.

The last two are the frame rule of scanners: what a scan did is decided by what it consumed.
-/

import Mathlib

namespace Scanner

/-- What a scan gives: its value, the tokens left, and the two marks. -/
structure Scanned (α β : Type) where
  val : β
  rest : List α
  hitEnd : Bool
  overflow : Bool
deriving DecidableEq

/-- A program that reads tokens from the front of a list. -/
def Scan (α β : Type) : Type := List α → Scanned α β

variable {α β γ : Type}

namespace Scan

/-- Run one scan, and a second one on what it left. -/
def andThen (first : Scan α β) (second : β → Scan α γ) : Scan α γ := fun input =>
  let one := first input
  let two := second one.val one.rest
  ⟨two.val, two.rest, one.hitEnd || two.hitEnd, one.overflow || two.overflow⟩

instance : Monad (Scan α) where
  pure value := fun input => ⟨value, input, false, false⟩
  bind := andThen

/-- Read up to `count` tokens; fewer only at the end of the input. -/
def read (count : ℕ) : Scan α (List α) := fun input =>
  ⟨input.take count, input.drop count, decide (input.length < count), false⟩

/-- Store a token at an index of a buffer. -/
def store (index capacity : ℕ) : Scan α Unit := fun input =>
  ⟨(), input, false, decide (capacity ≤ index)⟩

/-! ### Running a scan step by step -/

theorem bind_apply (first : Scan α β) (second : β → Scan α γ) (input : List α) :
    (first >>= second) input =
      ⟨(second (first input).val (first input).rest).val,
        (second (first input).val (first input).rest).rest,
        (first input).hitEnd || (second (first input).val (first input).rest).hitEnd,
        (first input).overflow || (second (first input).val (first input).rest).overflow⟩ := rfl

/-- A read is followed by what it got and what it left. -/
theorem read_bind_val (count : ℕ) (second : List α → Scan α γ) (input : List α) :
    ((read count >>= second) input).val = (second (input.take count) (input.drop count)).val := rfl

theorem read_bind_rest (count : ℕ) (second : List α → Scan α γ) (input : List α) :
    ((read count >>= second) input).rest = (second (input.take count) (input.drop count)).rest :=
  rfl

/-- A first scan without marks only passes its value and rest on. -/
theorem bind_of_clean {first : Scan α β} {second : β → Scan α γ} {input rest : List α} {value : β}
    (clean : first input = ⟨value, rest, false, false⟩) :
    (first >>= second) input = second value rest := by
  rw [bind_apply, clean]
  rfl

theorem read_append (tokens rest : List α) :
    read tokens.length (tokens ++ rest) = ⟨tokens, rest, false, false⟩ := by
  simp [read]

theorem read_one_cons (token : α) (rest : List α) :
    read 1 (token :: rest) = ⟨[token], rest, false, false⟩ := by
  simp [read]

theorem store_inside {index capacity : ℕ} (inside : index < capacity) (input : List α) :
    store index capacity input = ⟨(), input, false, false⟩ := by
  simp [store, inside]

/-! ### The values a scan gives -/

/-- Every value the scan gives has the property. -/
def Gives (scan : Scan α β) (property : β → Prop) : Prop := ∀ input, property (scan input).val

theorem gives_pure {property : β → Prop} {value : β} (holds : property value) :
    Gives (pure value : Scan α β) property := fun _ => holds

theorem gives_bind {first : Scan α β} {second : β → Scan α γ} {middle : β → Prop}
    {property : γ → Prop} (one : Gives first middle)
    (two : ∀ value, middle value → Gives (second value) property) :
    Gives (first >>= second) property :=
  fun input => two _ (one input) (first input).rest

/-- After a first scan that may give anything. -/
theorem gives_bind_any {first : Scan α β} {second : β → Scan α γ} {property : γ → Prop}
    (two : ∀ value, Gives (second value) property) : Gives (first >>= second) property :=
  gives_bind (show Gives first fun _ => True from fun _ => trivial) fun value _ => two value

theorem gives_ite {condition : Prop} [Decidable condition] {first second : Scan α β}
    {property : β → Prop} (one : Gives first property) (two : Gives second property) :
    Gives (if condition then first else second) property := by
  split
  · exact one
  · exact two

/-! ### Scans that store inside their buffers -/

/-- The scan stores nothing outside its buffer, on any input. -/
def Stays (scan : Scan α β) : Prop := ∀ input, (scan input).overflow = false

theorem stays_pure (value : β) : Stays (pure value : Scan α β) := fun _ => rfl

theorem stays_read (count : ℕ) : Stays (read count : Scan α (List α)) := fun _ => rfl

theorem stays_bind {first : Scan α β} {second : β → Scan α γ} (one : Stays first)
    (two : ∀ value, Stays (second value)) : Stays (first >>= second) :=
  fun input => Bool.or_eq_false_iff.mpr ⟨one input, two _ _⟩

theorem stays_ite {condition : Prop} [Decidable condition] {first second : Scan α β}
    (one : Stays first) (two : Stays second) : Stays (if condition then first else second) := by
  split
  · exact one
  · exact two

/-! ### Scans that need what they ask for -/

/-- The scan gives an accepted value only when no read came back short. -/
def Whole (scan : Scan α β) (accepts : β → Prop) : Prop :=
  ∀ input, accepts (scan input).val → (scan input).hitEnd = false

theorem whole_pure (value : β) {accepts : β → Prop} : Whole (pure value : Scan α β) accepts :=
  fun _ _ => rfl

theorem whole_store (index capacity : ℕ) {accepts : Unit → Prop} :
    Whole (store index capacity : Scan α Unit) accepts := fun _ _ => rfl

/-- A read that gives as many tokens as it asked for. -/
theorem whole_read (count : ℕ) {accepts : List α → Prop}
    (full : ∀ tokens, accepts tokens → count ≤ tokens.length) : Whole (read count) accepts := by
  intro input accepted
  have enough := full _ accepted
  rw [read, List.length_take] at enough
  exact decide_eq_false (by omega)

/-- A scan that gives no accepted value. -/
theorem whole_refuse {scan : Scan α β} {accepts : β → Prop}
    (refuses : Gives scan fun value => ¬ accepts value) : Whole scan accepts :=
  fun input accepted => absurd accepted (refuses input)

/-- What the first scan may not accept, the second one refuses. -/
theorem whole_bind {first : Scan α β} {second : β → Scan α γ} {acceptsFirst : β → Prop}
    {accepts : γ → Prop} (one : Whole first acceptsFirst)
    (two : ∀ value, acceptsFirst value → Whole (second value) accepts)
    (refuses : ∀ value, ¬ acceptsFirst value → Gives (second value) fun got => ¬ accepts got) :
    Whole (first >>= second) accepts := by
  intro input accepted
  rw [bind_apply] at accepted ⊢
  by_cases acceptedFirst : acceptsFirst (first input).val
  · exact Bool.or_eq_false_iff.mpr ⟨one input acceptedFirst, two _ acceptedFirst _ accepted⟩
  · exact absurd accepted (refuses _ acceptedFirst _)

theorem whole_ite {condition : Prop} [Decidable condition] {first second : Scan α β}
    {accepts : β → Prop} (one : Whole first accepts) (two : Whole second accepts) :
    Whole (if condition then first else second) accepts := by
  split
  · exact one
  · exact two

/-! ### Regular scans -/

/-- The frame rule: tokens a scan did not reach do not matter. -/
structure Regular (scan : Scan α β) : Prop where
  suffix : ∀ input, (scan input).rest <:+ input
  drained : ∀ input, (scan input).hitEnd = true → (scan input).rest = []
  frame : ∀ input later, (scan input).hitEnd = false →
    scan (input ++ later) =
      ⟨(scan input).val, (scan input).rest ++ later, false, (scan input).overflow⟩
  unframe : ∀ input later rest, (scan (input ++ later)).hitEnd = false →
    (scan (input ++ later)).rest = rest ++ later → (scan input).hitEnd = false

theorem regular_pure (value : β) : Regular (pure value : Scan α β) where
  suffix _ := List.suffix_refl _
  drained _ hit := by cases hit
  frame _ _ _ := rfl
  unframe _ _ _ _ _ := rfl

theorem regular_store (index capacity : ℕ) : Regular (store index capacity : Scan α Unit) where
  suffix _ := List.suffix_refl _
  drained _ hit := by cases hit
  frame _ _ _ := rfl
  unframe _ _ _ _ _ := rfl

theorem regular_read (count : ℕ) : Regular (read count : Scan α (List α)) where
  suffix input := List.drop_suffix count input
  drained input hit := by
    have short : input.length < count := by simpa [read] using hit
    exact List.drop_of_length_le short.le
  frame input later full := by
    have enough : count ≤ input.length := by simpa [read] using full
    simp only [read, List.take_append_of_le_length enough, List.drop_append_of_le_length enough,
      List.length_append, Scanned.mk.injEq, decide_eq_false_iff_not, true_and, and_true]
    omega
  unframe input later rest full left := by
    have enough : count ≤ (input ++ later).length := by simpa [read] using full
    have lengths := congrArg List.length left
    simp only [read, List.length_drop, List.length_append] at lengths enough
    exact decide_eq_false (by omega)

/-- **Sequencing keeps the frame rule.** -/
theorem regular_bind {first : Scan α β} {second : β → Scan α γ} (one : Regular first)
    (two : ∀ value, Regular (second value)) : Regular (first >>= second) where
  suffix input := ((two _).suffix _).trans (one.suffix input)
  drained input hit := by
    rw [bind_apply] at hit ⊢
    rcases Bool.or_eq_true_iff.mp hit with short | short
    · have nothing := one.drained input short
      have suffix := (two (first input).val).suffix (first input).rest
      rw [nothing] at suffix ⊢
      exact List.suffix_nil.mp suffix
    · exact (two _).drained _ short
  frame input later full := by
    rw [bind_apply] at full
    obtain ⟨firstFull, secondFull⟩ := Bool.or_eq_false_iff.mp full
    rw [bind_apply, bind_apply, one.frame input later firstFull,
      (two _).frame _ later secondFull, firstFull, secondFull]
    rfl
  unframe input later rest full left := by
    rw [bind_apply] at full left
    obtain ⟨firstFull, secondFull⟩ := Bool.or_eq_false_iff.mp full
    -- the first scan stopped in `input`: the second one left a suffix of what it left
    obtain ⟨middle, kept⟩ : ∃ middle, (first (input ++ later)).rest = middle ++ later := by
      obtain ⟨consumed, same⟩ := (two (first (input ++ later)).val).suffix
        (first (input ++ later)).rest
      refine ⟨consumed ++ rest, ?_⟩
      rw [← same, left, List.append_assoc]
    have firstAlone := one.unframe input later middle firstFull kept
    have framed := one.frame input later firstAlone
    rw [framed] at secondFull left
    rw [bind_apply]
    exact Bool.or_eq_false_iff.mpr ⟨firstAlone, (two _).unframe _ later rest secondFull left⟩

theorem regular_ite {condition : Prop} [Decidable condition] {first second : Scan α β}
    (one : Regular first) (two : Regular second) :
    Regular (if condition then first else second) := by
  split
  · exact one
  · exact two

end Scan

end Scanner
