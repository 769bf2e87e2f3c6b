import InvertibleGrammar.Proofs.Gathering

/-!
# Failed readings

When a reading meets a cause, and where it then leaves the input. Leaves and choices
stay where they started, apart from a run that is too short; the other combinations
stay where the part that failed left them.
-/

namespace InvertibleGrammar

namespace Run

variable {σ : Type}

/-- Nothing can be taken off an input that does not start with it. -/
theorem strip?_eq_none_iff [DecidableEq σ] {lead input : Run σ} :
    strip? lead input = none ↔ ¬ lead <+: input := by
  constructor
  · rintro h ⟨rest, hrest⟩
    rw [strip?_eq_some_iff.mpr hrest.symm] at h
    cases h
  · intro h
    cases hstrip : strip? lead input with
    | none => rfl
    | some rest => exact absurd ⟨rest, (strip?_eq_some_iff.mp hstrip).symm⟩ h

/-- The run is the longest one of at most `max` accepted symbols before `rest`. -/
structure Matched (accepts : σ → Bool) (max : Nat) (run rest : Run σ) : Prop where
  accepted : ∀ symbol ∈ run, accepts symbol = true
  length_le : run.length ≤ max
  longest : run.length = max ∨ ∀ symbol ∈ rest.head?, accepts symbol = false

/-- What splitting takes off is the longest run that may be taken. -/
theorem splitWhile_matched (max : Nat) (accepts : σ → Bool) (input : Run σ) :
    Matched accepts max (splitWhile max accepts input).1 (splitWhile max accepts input).2 := by
  induction input generalizing max with
  | nil =>
      have hsplit : splitWhile max accepts [] = ([], []) := by simp [splitWhile]
      rw [hsplit]
      exact ⟨by simp, Nat.zero_le max, Or.inr (by simp)⟩
  | cons symbol input ih =>
      cases max with
      | zero => exact ⟨by simp [splitWhile], Nat.le_refl 0, Or.inl rfl⟩
      | succ max =>
          obtain ⟨haccepted, hlength, hlongest⟩ := ih max
          cases hsymbol : accepts symbol with
          | false =>
              have hsplit : splitWhile (max + 1) accepts (symbol :: input) =
                  ([], symbol :: input) := by
                simp [splitWhile, hsymbol]
              rw [hsplit]
              refine ⟨by simp, Nat.zero_le _, Or.inr ?_⟩
              intro first hfirst
              obtain rfl := Option.some.inj hfirst
              exact hsymbol
          | true =>
              have hsplit : splitWhile (max + 1) accepts (symbol :: input) =
                  (symbol :: (splitWhile max accepts input).1,
                    (splitWhile max accepts input).2) := by
                simp [splitWhile, hsymbol]
              rw [hsplit]
              refine ⟨?_, Nat.succ_le_succ hlength, ?_⟩
              · intro other hother
                rcases List.mem_cons.mp hother with rfl | hother
                · exact hsymbol
                · exact haccepted other hother
              · exact hlongest.imp (congrArg (· + 1)) id

/-- The longest run before a rest is what splitting takes off. -/
theorem Matched.splitWhile_eq {accepts : σ → Bool} {max : Nat} {run rest : Run σ}
    (h : Matched accepts max run rest) : splitWhile max accepts (run ++ rest) = (run, rest) := by
  have hrun : ((run ++ rest).take max).takeWhile accepts = run := by
    rw [List.take_append, List.take_of_length_le h.length_le,
      List.takeWhile_append_of_pos h.accepted]
    have hstop : (rest.take (max - run.length)).takeWhile accepts = [] := by
      rcases h.longest with hmax | hrest
      · rw [hmax, Nat.sub_self, List.take_zero, List.takeWhile_nil]
      · cases rest with
        | nil => rw [List.take_nil, List.takeWhile_nil]
        | cons symbol rest =>
            have hsymbol : ¬ accepts symbol = true := by simp [hrest symbol rfl]
            cases max - run.length with
            | zero => rfl
            | succ more => rw [List.take_succ_cons, List.takeWhile_cons_of_neg hsymbol]
    rw [hstop, List.append_nil]
  rw [splitWhile, hrun, List.drop_left]

end Run

namespace Reading

variable {σ ε ε' α β : Type}

/-- The reading met `cause` and left `rest`. -/
def Breaks (reading : Reading σ ε α) (cause : ε) (rest : Run σ) : Prop :=
  reading.result = .error cause ∧ reading.rest = rest

theorem Breaks.fails {reading : Reading σ ε α} {cause : ε} {rest : Run σ}
    (h : reading.Breaks cause rest) : reading.Fails :=
  ⟨cause, h.1⟩

@[simp] theorem fail_breaks_iff {cause cause' : ε} {input rest : Run σ} :
    (fail cause' input : Reading σ ε α).Breaks cause rest ↔ cause' = cause ∧ input = rest := by
  simp [Breaks, fail]

@[simp] theorem not_succeed_breaks {value : α} {cause : ε} {input rest : Run σ} :
    ¬ (succeed value input : Reading σ ε α).Breaks cause rest := by
  simp [Breaks, succeed]

/-- Going on fails in the first step or, from where that one led, in the second. -/
theorem andThen_breaks_iff {reading : Reading σ ε α} {next : α → Run σ → Reading σ ε β}
    {cause : ε} {rest : Run σ} :
    (reading.andThen next).Breaks cause rest ↔
      reading.Breaks cause rest ∨
        ∃ first middle, reading.Yields first middle ∧ (next first middle).Breaks cause rest := by
  cases reading with
  | mk result left log =>
      cases result with
      | ok first =>
          constructor
          · intro h
            exact Or.inr ⟨first, left, ⟨rfl, rfl⟩, h⟩
          · rintro (⟨h, _⟩ | ⟨_, _, ⟨hfirst, rfl⟩, h⟩)
            · cases h
            · obtain rfl := Except.ok.inj hfirst
              exact h
      | error met =>
          constructor
          · rintro ⟨hcause, hrest⟩
            exact Or.inl ⟨congrArg Except.error (Except.error.inj hcause), hrest⟩
          · rintro (⟨hcause, hrest⟩ | ⟨_, _, ⟨h, _⟩, _⟩)
            · exact ⟨congrArg Except.error (Except.error.inj hcause), hrest⟩
            · cases h

theorem map_breaks_iff {reading : Reading σ ε α} {f : α → β} {cause : ε} {rest : Run σ} :
    (reading.map f).Breaks cause rest ↔ reading.Breaks cause rest := by
  cases reading with
  | mk result left log =>
      cases result with
      | ok value =>
          constructor
          · rintro ⟨h, _⟩
            cases h
          · rintro ⟨h, _⟩
            cases h
      | error met =>
          constructor
          · rintro ⟨hcause, hrest⟩
            exact ⟨congrArg Except.error (Except.error.inj hcause), hrest⟩
          · rintro ⟨hcause, hrest⟩
            exact ⟨congrArg Except.error (Except.error.inj hcause), hrest⟩

theorem mapCause_breaks_iff {reading : Reading σ ε α} {f : ε → ε'} {cause : ε'} {rest : Run σ} :
    (reading.mapCause f).Breaks cause rest ↔
      ∃ before, reading.Breaks before rest ∧ f before = cause := by
  cases reading with
  | mk result left log =>
      cases result with
      | ok value =>
          constructor
          · rintro ⟨h, _⟩
            cases h
          · rintro ⟨_, ⟨h, _⟩, _⟩
            cases h
      | error met =>
          constructor
          · rintro ⟨hcause, hrest⟩
            exact ⟨met, ⟨rfl, hrest⟩, Except.error.inj hcause⟩
          · rintro ⟨before, ⟨hbefore, hrest⟩, rfl⟩
            obtain rfl := Except.error.inj hbefore
            exact ⟨rfl, hrest⟩

theorem fails_iff {reading : Reading σ ε α} :
    reading.Fails ↔ ∃ cause rest, reading.Breaks cause rest := by
  constructor
  · rintro ⟨cause, hcause⟩
    exact ⟨cause, reading.rest, hcause, rfl⟩
  · rintro ⟨cause, rest, h⟩
    exact h.fails

theorem andThen_fails_iff {reading : Reading σ ε α} {next : α → Run σ → Reading σ ε β} :
    (reading.andThen next).Fails ↔
      reading.Fails ∨ ∃ first middle, reading.Yields first middle ∧ (next first middle).Fails := by
  simp only [fails_iff, andThen_breaks_iff]
  constructor
  · rintro ⟨cause, rest, hfirst | ⟨first, middle, hyields, hnext⟩⟩
    · exact Or.inl ⟨cause, rest, hfirst⟩
    · exact Or.inr ⟨first, middle, hyields, cause, rest, hnext⟩
  · rintro (⟨cause, rest, hfirst⟩ | ⟨first, middle, hyields, cause, rest, hnext⟩)
    · exact ⟨cause, rest, Or.inl hfirst⟩
    · exact ⟨cause, rest, Or.inr ⟨first, middle, hyields, hnext⟩⟩

theorem mapCause_fails_iff {reading : Reading σ ε α} {f : ε → ε'} :
    (reading.mapCause f).Fails ↔ reading.Fails := by
  simp only [fails_iff, mapCause_breaks_iff]
  constructor
  · rintro ⟨_, rest, before, h, _⟩
    exact ⟨before, rest, h⟩
  · rintro ⟨before, rest, h⟩
    exact ⟨f before, rest, before, h, rfl⟩

end Reading

namespace Reader

variable {σ α β : Type}

/-! ## Leaves -/

theorem not_empty_breaks {input rest : Run σ} {cause : Failure} :
    ¬ (empty input).Breaks cause rest :=
  Reading.not_succeed_breaks

section Leaves

variable [Symbol σ]

theorem endOfInput_breaks_iff {input rest : Run σ} {cause : Failure} :
    (endOfInput input).Breaks cause rest ↔
      input ≠ [] ∧ .unexpected "end of input" input.units = cause ∧ input = rest := by
  cases input with
  | nil => simp [endOfInput]
  | cons symbol input => simp [endOfInput]

theorem words_breaks [DecidableEq σ] {expected : String} {meanings : List (Run σ × α)}
    {input rest : Run σ} {cause : Failure} (h : (words expected meanings input).Breaks cause rest) :
    missing expected (meanings.map Prod.fst) input = cause ∧ input = rest := by
  simp only [words] at h
  split at h
  · exact absurd h Reading.not_succeed_breaks
  · exact Reading.fail_breaks_iff.mp h

/-- None of the words is read just if none starts the input. -/
theorem words_fails_iff [DecidableEq σ] {expected : String} {meanings : List (Run σ × α)}
    {input : Run σ} :
    (words expected meanings input).Fails ↔ ∀ entry ∈ meanings, ¬ entry.1 <+: input := by
  have hfound : (meanings.findSome? fun entry => (entry.1.strip? input).map fun rest =>
      (entry.2, rest)) = none ↔ ∀ entry ∈ meanings, ¬ entry.1 <+: input := by
    simp only [List.findSome?_eq_none_iff, Option.map_eq_none_iff,
      Run.strip?_eq_none_iff]
  rw [← hfound]
  simp only [words]
  split
  · rename_i hmet
    simp [hmet, Reading.succeed, Reading.Fails]
  · rename_i hmet
    simp [hmet, Reading.fail, Reading.Fails]

theorem integer_breaks_iff {t : IntType} {input rest : Run σ} {cause : Failure} :
    (integer t input).Breaks cause rest ↔
      Numeral.read t input = .error cause ∧ input = rest := by
  simp only [integer]
  split
  · rename_i hread
    simp [hread]
  · rename_i hread
    simp [hread]

/-- A run that is refused is below the least length, and it stays used up. -/
theorem run_breaks_iff {accepts : σ → Bool} {length : CountRange} {input rest : Run σ}
    {cause : Failure} :
    (run accepts length input).Breaks cause rest ↔
      (Run.splitWhile length.max.toNat accepts input).1.length < length.min.toNat ∧
        .predicate "prefix length" input.units = cause ∧
        (Run.splitWhile length.max.toNat accepts input).2 = rest := by
  simp only [run]
  split
  · rename_i hshort
    simp [hshort]
  · rename_i hshort
    simp [hshort]

end Leaves

/-! ## Sequences -/

theorem keep_breaks_iff {types : List Type} {first : Reader σ α} {others : Reader σ (Tuple types)}
    {input rest : Run σ} {cause : Failure} :
    (keep first others input).Breaks cause rest ↔
      (first input).Breaks cause rest ∨
        ∃ value middle, (first input).Yields value middle ∧
          (others middle).Breaks cause rest := by
  simp only [keep, Reading.andThen_breaks_iff, Reading.map_breaks_iff]

theorem skip_breaks_iff {first : Reader σ Unit} {others : Reader σ α} {input rest : Run σ}
    {cause : Failure} :
    (skip first others input).Breaks cause rest ↔
      (first input).Breaks cause rest ∨
        ∃ value middle, (first input).Yields value middle ∧
          (others middle).Breaks cause rest := by
  simp only [skip, Reading.andThen_breaks_iff]

/-- A conversion that refuses the value leaves the input behind that value. -/
theorem convert_breaks_iff {inner : Reader σ α} {conversion : Conversion α β} {input rest : Run σ}
    {cause : Failure} :
    (convert inner conversion input).Breaks cause rest ↔
      (inner input).Breaks cause rest ∨
        ∃ value, (inner input).Yields value rest ∧ conversion.apply value = .error cause := by
  simp only [convert, Reading.andThen_breaks_iff]
  apply or_congr Iff.rfl
  constructor
  · rintro ⟨value, _, hinner, hcause, rfl⟩
    exact ⟨value, hinner, hcause⟩
  · rintro ⟨value, hinner, hcause⟩
    exact ⟨value, rest, hinner, hcause, rfl⟩

/-! ## Choice -/

/-- The attempts fail if each of them does, and give the input back. -/
theorem attempts_breaks_iff {readers : List (Reader σ α × Nat)} {input rest : Run σ}
    {causes : List Failure} :
    (attempts input readers).Breaks causes rest ↔
      readers.map (fun entry => (entry.1 input).result) = causes.map .error ∧ input = rest := by
  induction readers generalizing causes with
  | nil => cases causes <;> simp [attempts]
  | cons entry others ih =>
      obtain ⟨reader, index⟩ := entry
      cases hr : (reader input).result with
      | ok value => cases causes <;> simp [attempts, Reading.Breaks, hr]
      | error cause =>
          have hothers : (attempts input ((reader, index) :: others)).Breaks causes rest ↔
              ∃ later, (attempts input others).Breaks later rest ∧ cause :: later = causes := by
            refine Iff.trans ?_ (Reading.mapCause_breaks_iff (f := (cause :: ·)))
            simp only [attempts, hr]
            exact Iff.rfl
          rw [hothers]
          constructor
          · rintro ⟨later, hlater, rfl⟩
            obtain ⟨hcauses, hrest⟩ := ih.mp hlater
            exact ⟨by simp [hr, hcauses], hrest⟩
          · rintro ⟨hcauses, hrest⟩
            cases causes with
            | nil => simp at hcauses
            | cons met later =>
                simp only [List.map_cons, hr, List.cons.injEq, Except.error.injEq] at hcauses
                obtain ⟨rfl, hlater⟩ := hcauses
                exact ⟨later, ih.mpr ⟨hlater, hrest⟩, rfl⟩

/-- A choice fails if each reader does. It lists their causes in declared order and
gives the input back. -/
theorem choice_breaks_iff {readers : List (Reader σ α)} {input rest : Run σ} {cause : Failure} :
    (choice readers input).Breaks cause rest ↔
      ∃ causes, readers.map (fun reader => (reader input).result) = causes.map .error ∧
        .exhausted causes = cause ∧ input = rest := by
  have hresults : readers.zipIdx.map (fun entry => (entry.1 input).result) =
      readers.map fun reader => (reader input).result := by
    calc
      readers.zipIdx.map (fun entry => (entry.1 input).result)
          = (readers.zipIdx.map Prod.fst).map fun reader => (reader input).result := by
        rw [List.map_map]
        rfl
      _ = readers.map fun reader => (reader input).result := by rw [List.zipIdx_map_fst]
  simp only [choice, Reading.mapCause_breaks_iff, attempts_breaks_iff, hresults]
  constructor
  · rintro ⟨causes, ⟨hcauses, hrest⟩, hcause⟩
    exact ⟨causes, hcauses, hcause, hrest⟩
  · rintro ⟨causes, hcauses, hcause, hrest⟩
    exact ⟨causes, ⟨hcauses, hrest⟩, hcause⟩

theorem not_optional_breaks {inner : Reader σ α} {input rest : Run σ} {cause : Failure} :
    ¬ (optional inner input).Breaks cause rest := by
  cases hr : (inner input).result with
  | ok value => simp [optional, Reading.Breaks, hr]
  | error met => simp [optional, Reading.Breaks, hr]

/-! ## Repetition -/

/-- An iteration fails in what stands in front of the element or in the element. -/
theorem iteration_fails_iff {element : Reader σ α} {separator : Reader σ Unit} {count : Nat}
    {input : Run σ} :
    (iteration element separator count input).Fails ↔
      (count ≠ 0 ∧ (separator input).Fails) ∨
        ∃ start, ((if count = 0 then empty else separator) input).Yields () start ∧
          (element start).Fails := by
  have hlead : (if count = 0 then .succeed () input else (separator input).mapCause .separator :
        Reading σ Stop Unit).Fails ↔ count ≠ 0 ∧ (separator input).Fails := by
    by_cases hcount : count = 0
    · simp [hcount, Reading.fails_iff]
    · simp [hcount, Reading.mapCause_fails_iff]
  rw [iteration, Reading.andThen_fails_iff, hlead]
  apply or_congr Iff.rfl
  constructor
  · rintro ⟨_, start, hstart, hfails⟩
    exact ⟨start, lead_yields_iff.mp hstart, Reading.mapCause_fails_iff.mp hfails⟩
  · rintro ⟨start, hstart, hfails⟩
    exact ⟨(), start, lead_yields_iff.mpr hstart, Reading.mapCause_fails_iff.mpr hfails⟩

variable [Symbol σ]

/-- A repetition fails with too few values, and then stays behind the last of them, or as
its terminator does behind that value. -/
theorem repetition_breaks_iff {element : Reader σ α} {separator terminator : Reader σ Unit}
    {count : CountRange} {input rest : Run σ} {cause : Failure} :
    (repetition element separator terminator count input).Breaks cause rest ↔
      ∃ values middle, Gathers element separator count.max.toNat input values middle ∧
        (values.length < count.min.toNat ∧ .predicate "repetition count" input.units = cause ∧
            middle = rest ∨
          count.min.toNat ≤ values.length ∧ (terminator middle).Breaks cause rest) := by
  simp only [repetition, gathers_iff]
  split
  · rename_i hmin
    constructor
    · rintro ⟨hcause, hrest⟩
      exact ⟨_, _, ⟨rfl, rfl⟩, Or.inl ⟨hmin, Except.error.inj hcause, hrest⟩⟩
    · rintro ⟨_, _, ⟨rfl, rfl⟩, ⟨_, rfl, hrest⟩ | ⟨hmany, _⟩⟩
      · exact ⟨rfl, hrest⟩
      · exact absurd hmin (Nat.not_lt.mpr hmany)
  · rename_i hmin
    have hclosing (values : List α) : ((terminator
        (gather element separator count.max.toNat 0 input).rest).map fun _ => values).Breaks
          cause rest ↔
        (terminator (gather element separator count.max.toNat 0 input).rest).Breaks cause rest :=
      Reading.map_breaks_iff
    constructor
    · intro h
      exact ⟨_, _, ⟨rfl, rfl⟩, Or.inr ⟨Nat.le_of_not_lt hmin, (hclosing _).mp h⟩⟩
    · rintro ⟨_, _, ⟨rfl, rfl⟩, ⟨hfew, _⟩ | ⟨_, h⟩⟩
      · exact absurd hfew hmin
      · exact (hclosing _).mpr h

end Reader

end InvertibleGrammar
