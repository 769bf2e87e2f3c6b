import InvertibleGrammar.Reader

/-!
# Successful readings

When a reading yields a value and what it leaves of the input. Each way of
combining readers has one statement that takes a success of the whole apart into
what its parts did, and gives it back from them.
-/

namespace InvertibleGrammar

namespace Reading

variable {σ ε ε' α β : Type}

/-- The reading found `value` and left `rest`. -/
def Yields (reading : Reading σ ε α) (value : α) (rest : Run σ) : Prop :=
  reading.result = .ok value ∧ reading.rest = rest

/-- The reading met a cause. -/
def Fails (reading : Reading σ ε α) : Prop := ∃ cause, reading.result = .error cause

theorem Yields.not_fails {reading : Reading σ ε α} {value : α} {rest : Run σ}
    (h : reading.Yields value rest) : ¬ reading.Fails := by
  rintro ⟨cause, hcause⟩
  rw [h.1] at hcause
  cases hcause

/-- A reading finds one value at most, and then leaves one rest. -/
theorem Yields.unique {reading : Reading σ ε α} {value value' : α} {rest rest' : Run σ}
    (h : reading.Yields value rest) (h' : reading.Yields value' rest') :
    value = value' ∧ rest = rest' :=
  ⟨Except.ok.inj (h.1.symm.trans h'.1), h.2.symm.trans h'.2⟩

/-- A reading that does not fail yields something. -/
theorem exists_yields_of_not_fails {reading : Reading σ ε α} (h : ¬ reading.Fails) :
    ∃ value rest, reading.Yields value rest := by
  cases hr : reading.result with
  | ok value => exact ⟨value, reading.rest, hr, rfl⟩
  | error cause => exact absurd ⟨cause, hr⟩ h

@[simp] theorem succeed_yields_iff {value value' : α} {input rest : Run σ} :
    (succeed value' input : Reading σ ε α).Yields value rest ↔ value' = value ∧ input = rest := by
  simp [Yields, succeed]

@[simp] theorem not_fail_yields {cause : ε} {value : α} {input rest : Run σ} :
    ¬ (fail cause input : Reading σ ε α).Yields value rest := by
  simp [Yields, fail]

/-- Going on succeeds through a value found in between. -/
theorem andThen_yields_iff {reading : Reading σ ε α} {next : α → Run σ → Reading σ ε β}
    {value : β} {rest : Run σ} :
    (reading.andThen next).Yields value rest ↔
      ∃ first middle, reading.Yields first middle ∧ (next first middle).Yields value rest := by
  cases reading with
  | mk result left log =>
      cases result with
      | ok first =>
          constructor
          · intro h
            exact ⟨first, left, ⟨rfl, rfl⟩, h⟩
          · rintro ⟨_, _, ⟨hfirst, rfl⟩, h⟩
            obtain rfl := Except.ok.inj hfirst
            exact h
      | error cause =>
          constructor
          · rintro ⟨h, _⟩
            cases h
          · rintro ⟨_, _, ⟨h, _⟩, _⟩
            cases h

theorem map_yields_iff {reading : Reading σ ε α} {f : α → β} {value : β} {rest : Run σ} :
    (reading.map f).Yields value rest ↔
      ∃ before, reading.Yields before rest ∧ f before = value := by
  cases reading with
  | mk result left log =>
      cases result with
      | ok found =>
          constructor
          · rintro ⟨hvalue, hrest⟩
            exact ⟨found, ⟨rfl, hrest⟩, Except.ok.inj hvalue⟩
          · rintro ⟨_, ⟨hfound, hrest⟩, rfl⟩
            obtain rfl := Except.ok.inj hfound
            exact ⟨rfl, hrest⟩
      | error cause =>
          constructor
          · rintro ⟨h, _⟩
            cases h
          · rintro ⟨_, ⟨h, _⟩, _⟩
            cases h

theorem mapCause_yields_iff {reading : Reading σ ε α} {f : ε → ε'} {value : α} {rest : Run σ} :
    (reading.mapCause f).Yields value rest ↔ reading.Yields value rest := by
  cases reading with
  | mk result left log =>
      cases result with
      | ok found =>
          constructor
          · rintro ⟨hvalue, hrest⟩
            exact ⟨congrArg Except.ok (Except.ok.inj hvalue), hrest⟩
          · rintro ⟨hvalue, hrest⟩
            exact ⟨congrArg Except.ok (Except.ok.inj hvalue), hrest⟩
      | error cause =>
          constructor
          · rintro ⟨h, _⟩
            cases h
          · rintro ⟨h, _⟩
            cases h

/-! ### What a success finds -/

/-- The value that was found with what is left, if the reading succeeded. -/
def found? (reading : Reading σ ε α) : Option (α × Run σ) :=
  match reading.result with
  | .ok value => some (value, reading.rest)
  | .error _ => none

theorem found?_eq_some_iff {reading : Reading σ ε α} {found : α × Run σ} :
    reading.found? = some found ↔ reading.Yields found.1 found.2 := by
  obtain ⟨value, rest⟩ := found
  cases hr : reading.result with
  | ok _ => simp [found?, Yields, hr]
  | error _ => simp [found?, Yields, hr]

theorem found?_eq_none_iff {reading : Reading σ ε α} : reading.found? = none ↔ reading.Fails := by
  cases hr : reading.result with
  | ok _ => simp [found?, Fails, hr]
  | error _ => simp [found?, Fails, hr]

theorem mapCause_found? (f : ε → ε') (reading : Reading σ ε α) :
    (reading.mapCause f).found? = reading.found? := by
  apply Option.ext
  intro found
  rw [found?_eq_some_iff, found?_eq_some_iff, mapCause_yields_iff]

end Reading

namespace Reader

variable {σ α β : Type}

/-! ## Leaves -/

theorem empty_yields_iff {input rest : Run σ} :
    (empty input).Yields () rest ↔ input = rest := by
  simp [empty]

theorem endOfInput_yields_iff [Symbol σ] {input rest : Run σ} :
    (endOfInput input).Yields () rest ↔ input = [] ∧ rest = [] := by
  cases input with
  | nil => simp [endOfInput, eq_comm]
  | cons symbol input => simp [endOfInput]

/-- A word that was read stood at the front of the input. -/
theorem exists_of_words_yields [DecidableEq σ] [Symbol σ] {expected : String}
    {meanings : List (Run σ × α)} {input rest : Run σ} {value : α}
    (h : (words expected meanings input).Yields value rest) :
    ∃ word, (word, value) ∈ meanings ∧ input = word ++ rest := by
  simp only [words] at h
  split at h
  · rename_i found left hfound
    obtain ⟨⟨word, meaning⟩, hmem, hstrip⟩ := List.exists_of_findSome?_eq_some hfound
    obtain ⟨after, hafter, hpair⟩ := Option.map_eq_some_iff.mp hstrip
    obtain ⟨rfl, rfl⟩ := Prod.mk.inj hpair
    obtain ⟨rfl, rfl⟩ := Reading.succeed_yields_iff.mp h
    exact ⟨word, hmem, Run.strip?_eq_some_iff.mp hafter⟩
  · exact absurd h Reading.not_fail_yields

/-- A run that was read stood at the front of the input, and it can be written again. -/
theorem run_yields [Symbol σ] {accepts : σ → Bool} {length : CountRange}
    {input value rest : Run σ} (h : (run accepts length input).Yields value rest) :
    input = value ++ rest ∧ value.all accepts = true ∧ length.contains value.length = true := by
  simp only [run] at h
  split at h
  · exact absurd h Reading.not_fail_yields
  · rename_i hmin
    obtain ⟨rfl, rfl⟩ := Reading.succeed_yields_iff.mp h
    refine ⟨(Run.splitWhile_append _ _ _).symm, ?_, ?_⟩
    · exact List.all_takeWhile
    · have hmax : (Run.splitWhile length.max.toNat accepts input).1.length ≤ length.max.toNat := by
        calc
          (Run.splitWhile length.max.toNat accepts input).1.length
              ≤ (input.take length.max.toNat).length :=
            (List.takeWhile_prefix accepts).length_le
          _ ≤ length.max.toNat := List.length_take_le ..
      exact CountRange.contains_iff.mpr ⟨Nat.not_lt.mp hmin, hmax⟩

/-! ## Sequences -/

theorem keep_yields_iff {types : List Type} {first : Reader σ α} {others : Reader σ (Tuple types)}
    {input rest : Run σ} {tuple : Tuple (α :: types)} :
    (keep first others input).Yields tuple rest ↔
      ∃ middle, (first input).Yields tuple.head middle ∧
        (others middle).Yields tuple.tail rest := by
  simp only [keep, Reading.andThen_yields_iff, Reading.map_yields_iff]
  constructor
  · rintro ⟨value, middle, hfirst, later, hothers, rfl⟩
    exact ⟨middle, by rwa [Tuple.head_cons], by rwa [Tuple.tail_cons]⟩
  · rintro ⟨middle, hfirst, hothers⟩
    exact ⟨tuple.head, middle, hfirst, tuple.tail, hothers, Tuple.cons_head_tail tuple⟩

theorem skip_yields_iff {first : Reader σ Unit} {others : Reader σ α} {input rest : Run σ}
    {value : α} :
    (skip first others input).Yields value rest ↔
      ∃ middle, (first input).Yields () middle ∧ (others middle).Yields value rest := by
  simp only [skip, Reading.andThen_yields_iff]
  constructor
  · rintro ⟨_, middle, hfirst, hothers⟩
    exact ⟨middle, hfirst, hothers⟩
  · rintro ⟨middle, hfirst, hothers⟩
    exact ⟨(), middle, hfirst, hothers⟩

theorem convert_yields_iff {inner : Reader σ α} {conversion : Conversion α β} {input rest : Run σ}
    {value : β} :
    (convert inner conversion input).Yields value rest ↔
      ∃ before, (inner input).Yields before rest ∧ conversion.apply before = .ok value := by
  simp only [convert, Reading.andThen_yields_iff]
  constructor
  · rintro ⟨before, _, hinner, hvalue, rfl⟩
    exact ⟨before, hinner, hvalue⟩
  · rintro ⟨before, hinner, hvalue⟩
    exact ⟨before, rest, hinner, hvalue, rfl⟩

/-! ## Choice -/

/-- The attempts find what the first of them finds that succeeds. -/
theorem attempts_found? (readers : List (Reader σ α × Nat)) (input : Run σ) :
    (attempts input readers).found? = readers.findSome? fun entry => (entry.1 input).found? := by
  induction readers with
  | nil => rfl
  | cons entry others ih =>
      obtain ⟨reader, index⟩ := entry
      rw [List.findSome?_cons]
      cases hr : (reader input).result with
      | ok value =>
          have hfound : (reader input).found? = some (value, (reader input).rest) :=
            Reading.found?_eq_some_iff.mpr ⟨hr, rfl⟩
          simp only [hfound, attempts, hr]
          rfl
      | error cause =>
          have hfails : (reader input).found? = none :=
            Reading.found?_eq_none_iff.mpr ⟨cause, hr⟩
          simp only [hfails, attempts, hr, ← ih]
          exact Reading.mapCause_found? _ _

/-- A choice finds what the first reader finds that succeeds, in declared order. -/
theorem choice_found? (readers : List (Reader σ α)) (input : Run σ) :
    (choice readers input).found? = readers.findSome? fun reader => (reader input).found? := by
  calc
    (choice readers input).found?
        = readers.zipIdx.findSome? fun entry => (entry.1 input).found? := by
      rw [← attempts_found?]
      exact Reading.mapCause_found? _ _
    _ = (readers.zipIdx.map Prod.fst).findSome? fun reader => (reader input).found? := by
      rw [List.findSome?_map]
      rfl
    _ = readers.findSome? fun reader => (reader input).found? := by rw [List.zipIdx_map_fst]

/-- A choice succeeds with the first reader that does, in declared order. -/
theorem choice_yields_iff {readers : List (Reader σ α)} {input rest : Run σ} {value : α} :
    (choice readers input).Yields value rest ↔
      ∃ earlier chosen later, readers = earlier ++ chosen :: later ∧
        (∀ reader ∈ earlier, (reader input).Fails) ∧ (chosen input).Yields value rest := by
  have hfound (reading : Reading σ Failure α) :
      reading.Yields value rest ↔ reading.found? = some (value, rest) := by
    rw [Reading.found?_eq_some_iff]
  rw [hfound, choice_found?, List.findSome?_eq_some_iff]
  simp only [hfound, Reading.found?_eq_none_iff, and_comm]

theorem optional_yields_some_iff {inner : Reader σ α} {input rest : Run σ} {value : α} :
    (optional inner input).Yields (some value) rest ↔ (inner input).Yields value rest := by
  cases hr : (inner input).result with
  | ok found => simp [optional, Reading.Yields, hr]
  | error cause => simp [optional, Reading.Yields, hr]

theorem optional_yields_none_iff {inner : Reader σ α} {input rest : Run σ} :
    (optional inner input).Yields none rest ↔ (inner input).Fails ∧ input = rest := by
  cases hr : (inner input).result with
  | ok found => simp [optional, Reading.Yields, Reading.Fails, hr]
  | error cause => simp [optional, Reading.Yields, Reading.Fails, hr]

end Reader

end InvertibleGrammar
