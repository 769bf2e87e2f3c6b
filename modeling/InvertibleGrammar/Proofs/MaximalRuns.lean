import InvertibleGrammar.Proofs.Remainder

/-!
# The run that a repetition reads

A repetition reads iteration after iteration. Each starts where the one before it ended
and uses some of the input, and the run goes on for as long as the greatest count and the
input allow. Just one run does so. Its length decides on the least count, and behind it
stands what the terminator has to read.
-/

namespace InvertibleGrammar

variable {σ : Type}

/-- A tail of a run that is no shorter is the run. -/
theorem Run.eq_of_suffix [Symbol σ] {rest input : Run σ} (h : rest <:+ input)
    (hunits : input.units ≤ rest.units) : rest = input := by
  obtain ⟨taken, rfl⟩ := h
  rw [units_append] at hunits
  have hnone : taken = [] := units_eq_zero_iff.mp (by omega)
  rw [hnone, List.nil_append]

/-- An iteration that was made: the value it found and where it ended. -/
structure Turn (σ α : Type) where
  value : α
  stop : Run σ

namespace Reader

variable {α : Type} [Symbol σ]

/-- A repetition has too few values, or it finds them if its terminator can be read. -/
theorem repetition_result {element : Reader σ α} {separator terminator : Reader σ Unit}
    {count : CountRange} {input middle : Run σ} {values : List α}
    (h : Gathers element separator count.max.toNat input values middle) :
    (repetition element separator terminator count input).result =
      if values.length < count.min.toNat then
        .error (.predicate "repetition count" input.units)
      else (terminator middle).result.map fun _ => values := by
  obtain ⟨rfl, rfl⟩ := gathers_iff.mp h
  simp only [repetition]
  split
  · rfl
  · rfl

end Reader

namespace Grammar

variable {α : Type} [Symbol σ] [DecidableEq σ]

/-! ## Iterations -/

/-- The element of iteration `index` starts at `middle`. A separator comes before it,
except in the first iteration. -/
def Leads (separator : Grammar σ Unit) (index : Nat) (start middle : Run σ) : Prop :=
  if index = 0 then middle = start else (separator.read start).Yields () middle

/-- Iteration `index`, started at `start`, finds the value of the turn and ends at its stop. -/
def TakesTurn (element : Grammar σ α) (separator : Grammar σ Unit) (index : Nat)
    (start : Run σ) (turn : Turn σ α) : Prop :=
  ∃ middle, separator.Leads index start middle ∧
    (element.read middle).Yields turn.value turn.stop

/-- Iteration `index`, started at `start`, fails in its separator or in its element, or it
uses nothing. -/
def TakesNoTurn (element : Grammar σ α) (separator : Grammar σ Unit) (index : Nat)
    (start : Run σ) : Prop :=
  (index ≠ 0 ∧ (separator.read start).Fails) ∨
    (∃ middle, separator.Leads index start middle ∧ (element.read middle).Fails) ∨
    ∃ value, TakesTurn element separator index start ⟨value, start⟩

/-- Iterations, numbered from `index` on, of which each starts where the one before it
ended and uses something. The first starts at `start`, and the last one ends at `last`. -/
inductive Chain (element : Grammar σ α) (separator : Grammar σ Unit) :
    Nat → Run σ → List (Turn σ α) → Run σ → Prop
  | done {index : Nat} {start : Run σ} : Chain element separator index start [] start
  | more {index : Nat} {start last : Run σ} {turn : Turn σ α} {turns : List (Turn σ α)}
      (step : TakesTurn element separator index start turn)
      (progress : turn.stop.units < start.units)
      (later : Chain element separator (index + 1) turn.stop turns last) :
      Chain element separator index start (turn :: turns) last

/-- A chain of at most `limit` iterations that no further iteration can go on from. -/
structure MaximalRun (element : Grammar σ α) (separator : Grammar σ Unit) (limit : Nat)
    (input : Run σ) (turns : List (Turn σ α)) (last : Run σ) : Prop where
  chain : Chain element separator 0 input turns last
  length_le : turns.length ≤ limit
  ends : turns.length = limit ∨ TakesNoTurn element separator turns.length last

section Iterations

variable {element : Grammar σ α} {separator : Grammar σ Unit} {limit index : Nat}
  {start last : Run σ} {turn : Turn σ α} {turns : List (Turn σ α)}

theorem leads_iff {middle : Run σ} : separator.Leads index start middle ↔
    ((if index = 0 then Reader.empty else separator.read) start).Yields () middle := by
  by_cases hindex : index = 0
  · simp only [Leads, hindex, if_true, Reader.empty_yields_iff, eq_comm]
  · simp only [Leads, hindex, if_false]

theorem takesTurn_iff : TakesTurn element separator index start turn ↔
    (Reader.iteration element.read separator.read index start).Yields turn.value turn.stop := by
  simp only [Reader.iteration_yields_iff, TakesTurn, leads_iff]

theorem TakesTurn.unique {other : Turn σ α} (h : TakesTurn element separator index start turn)
    (h' : TakesTurn element separator index start other) : turn = other := by
  obtain ⟨hvalue, hstop⟩ := (takesTurn_iff.mp h).unique (takesTurn_iff.mp h')
  cases turn
  cases other
  rw [Turn.mk.injEq]
  exact ⟨hvalue, hstop⟩

/-- No turn is taken where an iteration of the reader fails or makes no progress. -/
theorem takesNoTurn_iff : TakesNoTurn element separator index start ↔
    (Reader.iteration element.read separator.read index start).Fails ∨
      ∃ value rest,
        (Reader.iteration element.read separator.read index start).Yields value rest ∧
          ¬ rest.units < start.units := by
  have hidle : (∃ value, TakesTurn element separator index start ⟨value, start⟩) ↔
      ∃ value rest,
        (Reader.iteration element.read separator.read index start).Yields value rest ∧
          ¬ rest.units < start.units := by
    simp only [takesTurn_iff]
    constructor
    · rintro ⟨value, h⟩
      exact ⟨value, start, h, Nat.lt_irrefl _⟩
    · rintro ⟨value, rest, h, hprogress⟩
      have htail : rest <:+ start := by
        rw [← h.2]
        exact Reader.iteration_rest_suffix element.read_leavesTail separator.read_leavesTail _ _
      obtain rfl := Run.eq_of_suffix htail (Nat.le_of_not_lt hprogress)
      exact ⟨value, h⟩
  rw [TakesNoTurn, hidle, Reader.iteration_fails_iff, or_assoc]
  simp only [leads_iff]

/-- Where a turn is taken that uses something, it is not the case that none is taken. -/
theorem TakesNoTurn.not_progress (h : TakesNoTurn element separator index start)
    (step : TakesTurn element separator index start turn) :
    ¬ turn.stop.units < start.units := by
  have hstep := takesTurn_iff.mp step
  rcases takesNoTurn_iff.mp h with hfails | ⟨value, rest, hyields, hidle⟩
  · exact absurd hfails hstep.not_fails
  · rwa [(hstep.unique hyields).2]

/-- A chain that can go no further is the only one from its start. -/
theorem Chain.eq_of_ends {others : List (Turn σ α)} {last' : Run σ}
    (h : Chain element separator index start turns last)
    (h' : Chain element separator index start others last')
    (hlimit : index + turns.length ≤ limit) (hlimit' : index + others.length ≤ limit)
    (hends : index + turns.length = limit ∨
      TakesNoTurn element separator (index + turns.length) last)
    (hends' : index + others.length = limit ∨
      TakesNoTurn element separator (index + others.length) last') :
    others = turns ∧ last' = last := by
  induction h generalizing others with
  | done =>
      cases h' with
      | done => exact ⟨rfl, rfl⟩
      | more step progress later =>
          rcases hends with hfull | hnone
          · simp only [List.length_nil, List.length_cons] at hfull hlimit'
            omega
          · exact absurd progress (hnone.not_progress step)
  | @more index start last turn turns step progress later ih =>
      cases h' with
      | done =>
          rcases hends' with hfull | hnone
          · simp only [List.length_nil, List.length_cons] at hfull hlimit
            omega
          · exact absurd progress (hnone.not_progress step)
      | @more _ _ _ other others step' progress' later' =>
          obtain rfl := step.unique step'
          have hnext (turns : List (Turn σ α)) :
              index + (turn :: turns).length = index + 1 + turns.length := by
            rw [List.length_cons]
            omega
          rw [hnext] at hlimit hlimit' hends hends'
          obtain ⟨rfl, rfl⟩ := ih later' hlimit hlimit' hends hends'
          exact ⟨rfl, rfl⟩

/-- The iterations that gathering makes are a chain with the values that it finds. -/
theorem exists_chain {values : List α}
    (h : Reader.Iterates element.read separator.read index start values last) :
    ∃ turns, turns.map Turn.value = values ∧ Chain element separator index start turns last := by
  induction h with
  | done => exact ⟨[], rfl, .done⟩
  | @more index start middle last value values step progress later ih =>
      obtain ⟨turns, hvalues, hchain⟩ := ih
      have hturn : TakesTurn element separator index start ⟨value, middle⟩ :=
        takesTurn_iff.mpr step
      exact ⟨⟨value, middle⟩ :: turns, by rw [List.map_cons, hvalues], .more hturn progress hchain⟩

end Iterations

/-! ## Repetitions -/

section MaximalRuns

variable {element : Grammar σ α} {separator : Grammar σ Unit} {limit : Nat}
  {input last : Run σ} {turns : List (Turn σ α)}

/-- The iterations that gathering makes go on for as long as they may. -/
theorem exists_maximalRun {values : List α}
    (h : Reader.Gathers element.read separator.read limit input values last) :
    ∃ turns, turns.map Turn.value = values ∧
      MaximalRun element separator limit input turns last := by
  obtain ⟨turns, rfl, hchain⟩ := exists_chain h.chain
  have hlength := h.length_le
  have hstops := h.stops
  rw [List.length_map] at hlength hstops
  refine ⟨turns, rfl, hchain, hlength, ?_⟩
  rcases hstops with hfull | hnone
  · exact Or.inl (Nat.le_antisymm hlength hfull)
  · exact Or.inr (takesNoTurn_iff.mpr hnone)

theorem MaximalRun.unique {others : List (Turn σ α)} {last' : Run σ}
    (h : MaximalRun element separator limit input turns last)
    (h' : MaximalRun element separator limit input others last') :
    others = turns ∧ last' = last := by
  have hlength := h.length_le
  have hlength' := h'.length_le
  have hends := h.ends
  have hends' := h'.ends
  rw [← Nat.zero_add turns.length] at hlength hends
  rw [← Nat.zero_add others.length] at hlength' hends'
  exact h.chain.eq_of_ends h'.chain hlength hlength' hends hends'

end MaximalRuns

/-- A repetition makes the one maximal run of iterations. It fails if that is shorter than
the least count allows. Otherwise its terminator is read behind the run, and the repetition
fails for the same cause or returns the values of the run in order. So the number of values
returned is in the range, and nothing is returned if the range is empty. -/
theorem repetition_reads_maximal_run (element : Grammar σ α) (separator terminator : Grammar σ Unit)
    (count : CountRange) (input : Run σ) :
    (∃ turns last,
      MaximalRun element separator count.max.toNat input turns last ∧
      (∀ others last', MaximalRun element separator count.max.toNat input others last' →
        others = turns ∧ last' = last) ∧
      ((repetition element separator terminator count).read input).result =
        (if turns.length < count.min.toNat then
          .error (.predicate "repetition count" input.units)
        else (terminator.read last).result.map fun _ => turns.map Turn.value) ∧
      ((repetition element separator terminator count).read input).rest =
        if turns.length < count.min.toNat then last else (terminator.read last).rest) ∧
    (∀ values, ((repetition element separator terminator count).read input).result = .ok values →
      count.contains values.length = true) ∧
    ((∀ n, count.contains n = false) →
      ((repetition element separator terminator count).read input).Fails) := by
  have hcount (values : List α)
      (h : ((repetition element separator terminator count).read input).result = .ok values) :
      count.contains values.length = true := by
    obtain ⟨_, rfl, _, hmin, _⟩ := Reader.repetition_yields_iff.mp ⟨h, rfl⟩
    have hmax := Reader.length_gather_le element.read separator.read
      (Nat.zero_le count.max.toNat) input
    exact CountRange.contains_iff.mpr ⟨hmin, by omega⟩
  refine ⟨?_, hcount, ?_⟩
  · have hgathers : Reader.Gathers element.read separator.read count.max.toNat input _ _ :=
      Reader.gathers_iff.mpr ⟨rfl, rfl⟩
    obtain ⟨turns, hvalues, hrun⟩ := exists_maximalRun hgathers
    rw [← hvalues] at hgathers
    refine ⟨turns, _, hrun, fun others last' h => hrun.unique h, ?_, ?_⟩
    · rw [← turns.length_map Turn.value]
      exact Reader.repetition_result hgathers
    · rw [← turns.length_map Turn.value]
      exact Reader.repetition_rest hgathers
  · intro hempty
    cases hr : ((repetition element separator terminator count).read input).result with
    | error cause => exact ⟨cause, hr⟩
    | ok values => exact absurd (hcount values hr) (by rw [hempty]; decide)

/-- Digits between commas. There may be no digit between two commas. -/
def digitFields (count : CountRange) : Grammar Char (List (Run Char)) :=
  .repetition (.runOf Char.isDigit) (.text ",") .empty count

/-- The second iteration uses a comma and no digit, and a fourth is not made. In a range
whose bounds are the wrong way round nothing is read. -/
theorem repetition_reads_maximal_run_fields :
    (((digitFields ⟨1, 3⟩).read "1,,2,3".toList).result = .ok [['1'], [], ['2']] ∧
      (⟨1, 3⟩ : CountRange).contains 3 = true) ∧
    (∀ n, (⟨3, 2⟩ : CountRange).contains n = false) ∧
      ((digitFields ⟨3, 2⟩).read "1,,2,3".toList).Fails := by
  have hread : ((digitFields ⟨1, 3⟩).read "1,,2,3".toList).result = .ok [['1'], [], ['2']] := by
    with_unfolding_all rfl
  have hempty (n : Nat) : (⟨3, 2⟩ : CountRange).contains n = false :=
    CountRange.contains_eq_false (by decide)
  have hrun (count : CountRange) := repetition_reads_maximal_run (.runOf Char.isDigit)
    (.text ",") .empty count "1,,2,3".toList
  exact ⟨⟨hread, (hrun ⟨1, 3⟩).2.1 _ hread⟩, hempty, (hrun ⟨3, 2⟩).2.2 hempty⟩

end Grammar

end InvertibleGrammar
