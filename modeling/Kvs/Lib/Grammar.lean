/-
**Scans that accept exactly a language.**

`Reads clean scan accepts lang` joins the two halves of a parser's correctness: on clean input the
scan gives an accepted value, stopping at a place, if and only if what lies before that place is a
text the language has for the value. From left to right nothing else is accepted, from right to left
every text is, whatever follows it.

The rules build the language of a scan along its text: `reads_bind` concatenates, `reads_token` adds
a token in front and `reads_word` a word, `reads_skip` passes over a scan that reads nothing, and a
branch that cannot give an accepted value has the empty language (`reads_refuse`).

`Overruns` is the same for the mark `overflow`: which texts bring the scan to a place where a long
one overruns its buffer. Its rules take the texts a first scan reads from `Reads`.
-/

import Kvs.Lib.Scanner

namespace Scanner

namespace Scan

variable {α β γ : Type}

/-- The scan gives an accepted value exactly behind a text the language has for it. -/
def Reads (clean : α → Prop) (scan : Scan α β) (accepts : β → Prop) (lang : β → List α → Prop) :
    Prop :=
  ∀ input, (∀ token ∈ input, clean token) → ∀ value rest, accepts value →
    ((scan input).val = value ∧ (scan input).rest = rest ↔
      ∃ text, lang value text ∧ input = text ++ rest)

/-- The scan reads nothing and gives the value. -/
def Passes (scan : Scan α β) (value : β) : Prop :=
  ∀ input, (scan input).val = value ∧ (scan input).rest = input

variable {clean : α → Prop} {accepts : β → Prop} {lang : β → List α → Prop}

/-- Two languages that agree on clean texts of accepted values. -/
theorem Reads.congr {scan : Scan α β} (reads : Reads clean scan accepts lang)
    {lang' : β → List α → Prop}
    (same : ∀ value text, accepts value → (∀ token ∈ text, clean token) →
      (lang value text ↔ lang' value text)) : Reads clean scan accepts lang' := by
  intro input inputClean value rest accepted
  rw [reads input inputClean value rest accepted]
  refine exists_congr fun text => and_congr_left fun split => same value text accepted ?_
  subst split
  exact fun token member => inputClean token (List.mem_append_left _ member)

/-- Fewer values accepted. -/
theorem Reads.weaken {scan : Scan α β} (reads : Reads clean scan accepts lang)
    {accepts' : β → Prop} (fewer : ∀ value, accepts' value → accepts value) :
    Reads clean scan accepts' lang :=
  fun input inputClean value rest accepted =>
    reads input inputClean value rest (fewer value accepted)

/-- A scan that gives no accepted value. -/
theorem reads_refuse {scan : Scan α β} (refuses : Gives scan fun value => ¬ accepts value) :
    Reads clean scan accepts fun _ _ => False := by
  intro input _ value rest accepted
  constructor
  · rintro ⟨rfl, _⟩
    exact absurd accepted (refuses input)
  · rintro ⟨_, nothing, _⟩
    exact nothing.elim

theorem reads_pure (value : β) :
    Reads clean (pure value : Scan α β) accepts fun got text => got = value ∧ text = [] := by
  intro input _ got rest _
  constructor
  · rintro ⟨rfl, rfl⟩
    exact ⟨[], ⟨rfl, rfl⟩, rfl⟩
  · rintro ⟨text, ⟨rfl, rfl⟩, rfl⟩
    exact ⟨rfl, rfl⟩

/-- **Two scans in sequence** read the texts of the first followed by those of the second. -/
theorem reads_bind {first : Scan α γ} {second : γ → Scan α β} {acceptsFirst : γ → Prop}
    {langFirst : γ → List α → Prop} {langSecond : γ → β → List α → Prop}
    (one : Reads clean first acceptsFirst langFirst)
    (two : ∀ got head, acceptsFirst got → langFirst got head → (∀ token ∈ head, clean token) →
      Reads clean (second got) accepts (langSecond got))
    (refuses : ∀ got, ¬ acceptsFirst got → Gives (second got) fun value => ¬ accepts value) :
    Reads clean (first >>= second) accepts fun value text =>
      ∃ got head tail, acceptsFirst got ∧ langFirst got head ∧ langSecond got value tail ∧
        text = head ++ tail := by
  intro input inputClean value rest accepted
  rw [bind_apply]
  constructor
  · rintro ⟨gives, left⟩
    by_cases goes : acceptsFirst (first input).val
    · obtain ⟨head, isHead, split⟩ := (one input inputClean _ _ goes).mp ⟨rfl, rfl⟩
      have headClean : ∀ token ∈ head, clean token := fun token member =>
        inputClean token (split ▸ List.mem_append_left _ member)
      have restClean : ∀ token ∈ (first input).rest, clean token := fun token member =>
        inputClean token (split ▸ List.mem_append_right _ member)
      obtain ⟨tail, isTail, split'⟩ :=
        (two _ head goes isHead headClean _ restClean value rest accepted).mp ⟨gives, left⟩
      exact ⟨head ++ tail, ⟨_, head, tail, goes, isHead, isTail, rfl⟩,
        by rw [List.append_assoc, ← split', ← split]⟩
    · exact absurd (gives ▸ accepted) (refuses _ goes _)
  · rintro ⟨text, ⟨got, head, tail, goes, isHead, isTail, rfl⟩, rfl⟩
    rw [List.append_assoc] at inputClean ⊢
    obtain ⟨gives, left⟩ := (one _ inputClean got (tail ++ rest) goes).mpr ⟨head, isHead, rfl⟩
    rw [gives, left]
    exact (two got head goes isHead (fun token member => inputClean token (by simp [member]))
      _ (fun token member => inputClean token (by simp_all)) value rest accepted).mpr
      ⟨tail, isTail, rfl⟩

/-- **One token in front.** -/
theorem reads_token {second : List α → Scan α β} {langSecond : α → β → List α → Prop}
    (two : ∀ token, clean token → Reads clean (second [token]) accepts (langSecond token))
    (refuses : Gives (second []) fun value => ¬ accepts value) :
    Reads clean (read 1 >>= second) accepts fun value text =>
      ∃ token tail, clean token ∧ langSecond token value tail ∧ text = token :: tail := by
  intro input inputClean value rest accepted
  cases input with
  | nil =>
    constructor
    · rintro ⟨gives, _⟩
      exact absurd (gives ▸ accepted) (refuses [])
    · rintro ⟨_, ⟨token, tail, _, _, rfl⟩, split⟩
      cases split
  | cons token input =>
    rw [bind_of_clean (read_one_cons token input)]
    obtain ⟨tokenClean, tailClean⟩ := List.forall_mem_cons.mp inputClean
    rw [two token tokenClean input tailClean value rest accepted]
    constructor
    · rintro ⟨tail, isTail, rfl⟩
      exact ⟨token :: tail, ⟨token, tail, tokenClean, isTail, rfl⟩, rfl⟩
    · rintro ⟨_, ⟨token', tail, _, isTail, rfl⟩, split⟩
      obtain ⟨rfl, rfl⟩ := List.cons.inj split
      exact ⟨tail, isTail, rfl⟩

/-- **One token that must stand there**: behind any other the scan gives nothing accepted. -/
theorem reads_expected {second : List α → Scan α β} {expected : α} (expectedClean : clean expected)
    (two : Reads clean (second [expected]) accepts lang)
    (others : ∀ token, clean token → token ≠ expected →
      Gives (second [token]) fun value => ¬ accepts value)
    (ended : Gives (second []) fun value => ¬ accepts value) :
    Reads clean (read 1 >>= second) accepts fun value text =>
      ∃ tail, lang value tail ∧ text = expected :: tail := by
  have later : ∀ token, clean token → Reads clean (second [token]) accepts fun value tail =>
      token = expected ∧ lang value tail := by
    intro token tokenClean
    by_cases same : token = expected
    · subst same
      exact two.congr fun value tail _ _ => (and_iff_right rfl).symm
    · refine (reads_refuse (others token tokenClean same)).congr fun value tail _ _ => ?_
      exact (iff_false_intro fun isTail => same isTail.1).symm
  refine (reads_token later ended).congr fun value text _ _ => ?_
  constructor
  · rintro ⟨_, tail, _, ⟨rfl, isTail⟩, rfl⟩
    exact ⟨tail, isTail, rfl⟩
  · rintro ⟨tail, isTail, rfl⟩
    exact ⟨expected, tail, expectedClean, ⟨rfl, isTail⟩, rfl⟩

/-- **A word that must stand there**: behind anything else the scan gives nothing accepted. -/
theorem reads_word {second : List α → Scan α β} {word : List α}
    (two : Reads clean (second word) accepts lang)
    (others : ∀ tokens, tokens ≠ word → Gives (second tokens) fun value => ¬ accepts value) :
    Reads clean (read word.length >>= second) accepts fun value text =>
      ∃ tail, lang value tail ∧ text = word ++ tail := by
  intro input inputClean value rest accepted
  by_cases starts : input.take word.length = word
  · obtain ⟨tail, rfl⟩ : ∃ tail, input = word ++ tail :=
      ⟨input.drop word.length, by
        rw [← congrArg (· ++ input.drop word.length) starts, List.take_append_drop]⟩
    have tailClean : ∀ token ∈ tail, clean token := fun token member =>
      inputClean token (List.mem_append_right _ member)
    rw [bind_of_clean (read_append word tail), two tail tailClean value rest accepted]
    constructor
    · rintro ⟨text, isText, rfl⟩
      exact ⟨word ++ text, ⟨text, isText, rfl⟩, (List.append_assoc ..).symm⟩
    · rintro ⟨_, ⟨text, isText, rfl⟩, split⟩
      rw [List.append_assoc] at split
      exact ⟨text, isText, List.append_cancel_left split⟩
  · constructor
    · rintro ⟨gives, _⟩
      exact absurd (gives ▸ accepted) (others _ starts _)
    · rintro ⟨_, ⟨text, _, rfl⟩, rfl⟩
      exact absurd (by rw [List.append_assoc, List.take_left]) starts

/-- **A scan that reads nothing** in front. -/
theorem reads_skip {first : Scan α γ} {second : γ → Scan α β} {got : γ} (passes : Passes first got)
    (two : Reads clean (second got) accepts lang) :
    Reads clean (first >>= second) accepts lang := by
  intro input inputClean value rest accepted
  obtain ⟨gives, left⟩ := passes input
  rw [bind_apply, gives, left]
  exact two input inputClean value rest accepted

theorem passes_store (index capacity : ℕ) : Passes (store index capacity : Scan α Unit) () :=
  fun _ => ⟨rfl, rfl⟩

/-! ### Where a scan leaves its buffers -/

/-- The scan stores outside a buffer exactly on the inputs where one of the texts `starts` stands in
front of a long one. -/
def Overruns (long : List α → Prop) (scan : Scan α β) (starts : List α → Prop) : Prop :=
  ∀ input, (scan input).overflow = true ↔
    ∃ before rest, starts before ∧ long rest ∧ input = before ++ rest

variable {long starts : List α → Prop}

theorem Overruns.congr {scan : Scan α β} (overruns : Overruns long scan starts)
    {starts' : List α → Prop} (same : ∀ before, starts before ↔ starts' before) :
    Overruns long scan starts' := by
  obtain rfl : starts = starts' := funext fun before => propext (same before)
  exact overruns

/-- A scan that stays in its buffers starts no text that matters. -/
theorem overruns_never {scan : Scan α β} (stays : Stays scan) :
    Overruns long scan fun _ => False := by
  intro input
  rw [stays input]
  constructor
  · intro marked
    cases marked
  · rintro ⟨_, _, nothing, _⟩
    exact nothing.elim

/-- **Two scans in sequence** leave their buffers behind the texts of the first, or behind those it
reads followed by those of the second. -/
theorem overruns_bind {first : Scan α γ} {second : γ → Scan α β} {acceptsFirst : γ → Prop}
    {langFirst : γ → List α → Prop} {startsSecond : γ → List α → Prop}
    (one : Overruns long first starts) (reads : Reads (fun _ => True) first acceptsFirst langFirst)
    (two : ∀ got head, acceptsFirst got → langFirst got head →
      Overruns long (second got) (startsSecond got))
    (refused : ∀ got, ¬ acceptsFirst got → Stays (second got)) :
    Overruns long (first >>= second) fun before => starts before ∨
      ∃ got head tail, acceptsFirst got ∧ langFirst got head ∧ startsSecond got tail ∧
        before = head ++ tail := by
  intro input
  rw [bind_apply, Bool.or_eq_true]
  constructor
  · rintro (marked | marked)
    · obtain ⟨before, rest, start, isLong, split⟩ := (one input).mp marked
      exact ⟨before, rest, .inl start, isLong, split⟩
    · by_cases goes : acceptsFirst (first input).val
      · obtain ⟨head, isHead, split⟩ := (reads input (fun _ _ => trivial) _ _ goes).mp ⟨rfl, rfl⟩
        obtain ⟨tail, rest, start, isLong, split'⟩ := (two _ head goes isHead _).mp marked
        exact ⟨head ++ tail, rest, .inr ⟨_, head, tail, goes, isHead, start, rfl⟩, isLong,
          by rw [List.append_assoc, ← split', ← split]⟩
      · rw [refused _ goes] at marked
        cases marked
  · rintro ⟨before, rest, start | ⟨got, head, tail, goes, isHead, start, rfl⟩, isLong, rfl⟩
    · exact .inl ((one _).mpr ⟨before, rest, start, isLong, rfl⟩)
    · rw [List.append_assoc]
      obtain ⟨gives, left⟩ := (reads (head ++ (tail ++ rest)) (fun _ _ => trivial) got
        (tail ++ rest) goes).mpr ⟨head, isHead, rfl⟩
      rw [gives, left]
      exact .inr ((two got head goes isHead _).mpr ⟨tail, rest, start, isLong, rfl⟩)

/-- What stays in its buffers may follow. -/
theorem overruns_then {first : Scan α γ} {second : γ → Scan α β} (one : Overruns long first starts)
    (stays : ∀ got, Stays (second got)) : Overruns long (first >>= second) starts := by
  intro input
  rw [bind_apply, stays, Bool.or_false]
  exact one input

/-- **One token in front**, behind which alone the scan goes on. -/
theorem overruns_expected {second : List α → Scan α β} {expected : α}
    (one : Overruns long (second [expected]) starts)
    (others : ∀ tokens, tokens ≠ [expected] → Stays (second tokens)) :
    Overruns long (read 1 >>= second) fun before =>
      ∃ tail, starts tail ∧ before = expected :: tail := by
  intro input
  by_cases head : input.take 1 = [expected]
  · obtain ⟨rest, rfl⟩ : ∃ rest, input = expected :: rest :=
      ⟨input.drop 1, by rw [← List.take_append_drop 1 input, head]; rfl⟩
    rw [bind_of_clean (read_one_cons expected rest), one rest]
    constructor
    · rintro ⟨tail, behind, start, isLong, rfl⟩
      exact ⟨expected :: tail, behind, ⟨tail, start, rfl⟩, isLong, rfl⟩
    · rintro ⟨_, behind, ⟨tail, start, rfl⟩, isLong, split⟩
      obtain ⟨_, rfl⟩ := List.cons.inj split
      exact ⟨tail, behind, start, isLong, rfl⟩
  · have stayed : ((read 1 >>= second) input).overflow = false := others _ head _
    rw [stayed]
    constructor
    · intro marked
      cases marked
    · rintro ⟨_, behind, ⟨tail, _, rfl⟩, _, rfl⟩
      exact absurd rfl head

/-- **A scan that reads nothing** in front, and stays in its buffers. -/
theorem overruns_skip {first : Scan α γ} {second : γ → Scan α β} {got : γ}
    (passes : Passes first got) (stays : Stays first) (two : Overruns long (second got) starts) :
    Overruns long (first >>= second) starts := by
  intro input
  obtain ⟨gives, left⟩ := passes input
  rw [bind_apply, gives, left, stays, Bool.false_or]
  exact two input

end Scan

end Scanner
