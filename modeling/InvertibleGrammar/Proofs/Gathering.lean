import InvertibleGrammar.Proofs.SuccessfulReading

/-!
# Gathering

A repetition gathers its values in a chain of iterations, each of which uses some
of the input. The chain ends where the greatest count is reached or where a
further iteration would fail or use nothing. Such a chain is what gathering finds,
and gathering finds no other.
-/

namespace InvertibleGrammar.Reader

variable {σ α : Type} [Symbol σ]

omit [Symbol σ] in
/-- What stands in front of the element is read as a reader of its own would read it. -/
theorem lead_yields_iff {separator : Reader σ Unit} {count : Nat} {input start : Run σ} :
    (if count = 0 then .succeed () input else (separator input).mapCause .separator :
        Reading σ Stop Unit).Yields () start ↔
      ((if count = 0 then empty else separator) input).Yields () start := by
  by_cases hcount : count = 0
  · simp [hcount, empty_yields_iff]
  · simp only [hcount, if_false, Reading.mapCause_yields_iff]

omit [Symbol σ] in
/-- An iteration succeeds with what stands in front of the element and the element itself. -/
theorem iteration_yields_iff {element : Reader σ α} {separator : Reader σ Unit} {count : Nat}
    {input rest : Run σ} {value : α} :
    (iteration element separator count input).Yields value rest ↔
      ∃ start, ((if count = 0 then empty else separator) input).Yields () start ∧
        (element start).Yields value rest := by
  simp only [iteration, Reading.andThen_yields_iff]
  constructor
  · rintro ⟨_, start, hstart, hvalue⟩
    exact ⟨start, lead_yields_iff.mp hstart, Reading.mapCause_yields_iff.mp hvalue⟩
  · rintro ⟨start, hstart, hvalue⟩
    exact ⟨(), start, lead_yields_iff.mpr hstart, Reading.mapCause_yields_iff.mpr hvalue⟩

/-- From an input, iterations that each use something lead over some values to what is left. -/
inductive Iterates (element : Reader σ α) (separator : Reader σ Unit) :
    Nat → Run σ → List α → Run σ → Prop
  /-- No iteration. -/
  | done {count : Nat} {input : Run σ} : Iterates element separator count input [] input
  /-- An iteration and those after it. -/
  | more {count : Nat} {input middle rest : Run σ} {value : α} {values : List α}
      (step : (iteration element separator count input).Yields value middle)
      (progress : middle.units < input.units)
      (later : Iterates element separator (count + 1) middle values rest) :
      Iterates element separator count input (value :: values) rest

/-- Each iteration takes a byte at least, so there are no more values than bytes used. -/
theorem Iterates.length_add_units_le {element : Reader σ α} {separator : Reader σ Unit}
    {count : Nat} {input rest : Run σ} {values : List α}
    (h : Iterates element separator count input values rest) :
    values.length + rest.units ≤ input.units := by
  induction h with
  | done => simp
  | more step progress later ih =>
      rw [List.length_cons]
      omega

/-- No iteration is left to make: there are enough values, or the next iteration
fails or uses nothing. -/
def Stops (element : Reader σ α) (separator : Reader σ Unit) (limit count : Nat)
    (input : Run σ) : Prop :=
  limit ≤ count ∨ (iteration element separator count input).Fails ∨
    ∃ value rest, (iteration element separator count input).Yields value rest ∧
      ¬ rest.units < input.units

section Gather

variable {element : Reader σ α} {separator : Reader σ Unit} {limit count : Nat}
  {input middle rest : Run σ} {value : α} {values : List α}

/-- Gathering goes on after an iteration that used something. -/
theorem gather_of_yields (hcount : count < limit)
    (hstep : (iteration element separator count input).Yields value middle)
    (hprogress : middle.units < input.units) :
    (gather element separator limit count input).values =
        value :: (gather element separator limit (count + 1) middle).values ∧
      (gather element separator limit count input).rest =
        (gather element separator limit (count + 1) middle).rest := by
  obtain ⟨hresult, rfl⟩ := hstep
  rw [gather, if_pos hcount]
  simp only [hresult, if_pos hprogress, and_self]

/-- Gathering ends where no iteration is left to make. -/
theorem gather_of_stops (h : Stops element separator limit count input) :
    (gather element separator limit count input).values = [] ∧
      (gather element separator limit count input).rest = input := by
  rw [gather]
  by_cases hcount : count < limit
  · rw [if_pos hcount]
    rcases h with hlimit | ⟨cause, hcause⟩ | ⟨value, rest, ⟨hresult, rfl⟩, hprogress⟩
    · omega
    · simp [hcause]
    · simp [hresult, hprogress]
  · simp [if_neg hcount]

/-- Either gathering ends here or an iteration uses something. -/
theorem stops_or_exists_yields (element : Reader σ α) (separator : Reader σ Unit)
    (limit count : Nat) (input : Run σ) :
    Stops element separator limit count input ∨
      count < limit ∧ ∃ value rest,
        (iteration element separator count input).Yields value rest ∧
          rest.units < input.units := by
  by_cases hcount : count < limit
  · by_cases hfails : (iteration element separator count input).Fails
    · exact Or.inl (Or.inr (Or.inl hfails))
    · obtain ⟨value, rest, hyields⟩ := Reading.exists_yields_of_not_fails hfails
      by_cases hprogress : rest.units < input.units
      · exact Or.inr ⟨hcount, value, rest, hyields, hprogress⟩
      · exact Or.inl (Or.inr (Or.inr ⟨value, rest, hyields, hprogress⟩))
  · exact Or.inl (Or.inl (Nat.le_of_not_lt hcount))

/-- At the end of the input no iteration uses anything. -/
theorem stops_nil (element : Reader σ α) (separator : Reader σ Unit) (limit count : Nat) :
    Stops element separator limit count [] := by
  rcases stops_or_exists_yields element separator limit count [] with
    hstops | ⟨_, value, rest, _, hprogress⟩
  · exact hstops
  · exact absurd hprogress (Nat.not_lt_zero _)

/-- What gathering finds is a chain of iterations up to where no iteration is left to make. -/
theorem gather_iterates (element : Reader σ α) (separator : Reader σ Unit)
    (limit count : Nat) (input : Run σ) :
    Iterates element separator count input
      (gather element separator limit count input).values
      (gather element separator limit count input).rest := by
  rcases stops_or_exists_yields element separator limit count input with
    hstops | ⟨hcount, value, middle, hstep, hprogress⟩
  · obtain ⟨hvalues, hrest⟩ := gather_of_stops hstops
    rw [hvalues, hrest]
    exact .done
  · obtain ⟨hvalues, hrest⟩ := gather_of_yields hcount hstep hprogress
    rw [hvalues, hrest]
    exact .more hstep hprogress (gather_iterates element separator limit (count + 1) middle)
termination_by input.units

/-- A chain of iterations that ends where no iteration is left is what gathering finds. -/
theorem gather_of_iterates (hchain : Iterates element separator count input values rest)
    (hlimit : values = [] ∨ count + values.length ≤ limit)
    (hstops : Stops element separator limit (count + values.length) rest) :
    (gather element separator limit count input).values = values ∧
      (gather element separator limit count input).rest = rest := by
  induction hchain with
  | done => exact gather_of_stops hstops
  | @more count input middle rest value values step progress later ih =>
      have hlength : count + (value :: values).length = count + 1 + values.length := by
        simp only [List.length_cons]
        omega
      have hbound : count + 1 + values.length ≤ limit := by
        rw [← hlength]
        exact hlimit.resolve_left (List.cons_ne_nil value values)
      rw [hlength] at hstops
      have hcount : count < limit := by omega
      obtain ⟨hvalues, hrest⟩ := gather_of_yields hcount step progress
      obtain ⟨hlaterValues, hlaterRest⟩ := ih (Or.inr hbound) hstops
      exact ⟨by rw [hvalues, hlaterValues], by rw [hrest, hlaterRest]⟩

end Gather

/-- No more values are gathered than the limit allows. -/
theorem length_gather_le (element : Reader σ α) (separator : Reader σ Unit)
    {limit count : Nat} (hcount : count ≤ limit) (input : Run σ) :
    count + (gather element separator limit count input).values.length ≤ limit := by
  rcases stops_or_exists_yields element separator limit count input with
    hstops | ⟨hlimit, value, middle, hstep, hprogress⟩
  · rw [(gather_of_stops hstops).1]
    simpa using hcount
  · rw [(gather_of_yields hlimit hstep hprogress).1]
    have hnext : count + 1 ≤ limit := hlimit
    have hlater := length_gather_le element separator hnext middle
    simp only [List.length_cons]
    omega
termination_by input.units

/-- Where gathering ends no iteration is left to make. -/
theorem gather_stops (element : Reader σ α) (separator : Reader σ Unit) (limit count : Nat)
    (input : Run σ) :
    Stops element separator limit
      (count + (gather element separator limit count input).values.length)
      (gather element separator limit count input).rest := by
  rcases stops_or_exists_yields element separator limit count input with
    hstops | ⟨hlimit, value, middle, hstep, hprogress⟩
  · obtain ⟨hvalues, hrest⟩ := gather_of_stops hstops
    rw [hvalues, hrest]
    exact hstops
  · obtain ⟨hvalues, hrest⟩ := gather_of_yields hlimit hstep hprogress
    have hlater := gather_stops element separator limit (count + 1) middle
    rw [hvalues, hrest, List.length_cons, Nat.add_comm _ 1, ← Nat.add_assoc]
    exact hlater
termination_by input.units

/-- From an input, no more than `limit` iterations lead over the values to `rest`, and no
iteration is left to make there. -/
structure Gathers (element : Reader σ α) (separator : Reader σ Unit) (limit : Nat)
    (input : Run σ) (values : List α) (rest : Run σ) : Prop where
  chain : Iterates element separator 0 input values rest
  length_le : values.length ≤ limit
  stops : Stops element separator limit values.length rest

/-- Just one chain of iterations goes on for as long as it may, and gathering finds it. -/
theorem gathers_iff {element : Reader σ α} {separator : Reader σ Unit} {limit : Nat}
    {input rest : Run σ} {values : List α} :
    Gathers element separator limit input values rest ↔
      (gather element separator limit 0 input).values = values ∧
        (gather element separator limit 0 input).rest = rest := by
  constructor
  · rintro ⟨hchain, hlength, hstops⟩
    rw [← Nat.zero_add values.length] at hlength hstops
    exact gather_of_iterates hchain (Or.inr hlength) hstops
  · rintro ⟨rfl, rfl⟩
    have hlength := length_gather_le element separator (Nat.zero_le limit) input
    have hstops := gather_stops element separator limit 0 input
    rw [Nat.zero_add] at hlength hstops
    exact ⟨gather_iterates element separator limit 0 input, hlength, hstops⟩

theorem exists_gathers (element : Reader σ α) (separator : Reader σ Unit) (limit : Nat)
    (input : Run σ) : ∃ values rest, Gathers element separator limit input values rest :=
  ⟨_, _, gathers_iff.mpr ⟨rfl, rfl⟩⟩

/-- A repetition succeeds with an allowed number of gathered values and a terminator. -/
theorem repetition_yields_iff {element : Reader σ α} {separator terminator : Reader σ Unit}
    {count : CountRange} {input rest : Run σ} {values : List α} :
    (repetition element separator terminator count input).Yields values rest ↔
      ∃ middle, (gather element separator count.max.toNat 0 input).values = values ∧
        (gather element separator count.max.toNat 0 input).rest = middle ∧
        count.min.toNat ≤ values.length ∧ (terminator middle).Yields () rest := by
  simp only [repetition]
  constructor
  · intro h
    split at h
    · exact absurd h.1 (by simp)
    · rename_i hmin
      obtain ⟨_, hclosing, hvalues⟩ := Reading.map_yields_iff.mp h
      subst hvalues
      exact ⟨_, rfl, rfl, Nat.le_of_not_lt hmin, hclosing⟩
  · rintro ⟨middle, rfl, rfl, hmin, hclosing⟩
    rw [if_neg (Nat.not_lt.mpr hmin)]
    exact Reading.map_yields_iff.mpr ⟨(), hclosing, rfl⟩

end InvertibleGrammar.Reader
