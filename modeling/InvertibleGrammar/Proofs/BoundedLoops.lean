import InvertibleGrammar.Proofs.Causes

/-!
# Readings end

The loop of a repetition goes on while its iterations use something, with no other bound
than the greatest count. Here each loop is given a number of iterations that it may start,
and a reading that needs more comes to nothing. One iteration more than the input has
bytes is always enough, for the loops of the parts as well, since no part is ever started
on more than the whole was. Reading within that budget is reading.
-/

namespace InvertibleGrammar

/-- A reader that may come to no end. -/
abbrev PartialReader (σ α : Type) := Run σ → Option (Reading σ Failure α)

namespace Reading

variable {σ ε α β : Type}

/-- Goes on reading from where a value was found, if that comes to an end. -/
def andThen? (reading : Reading σ ε α) (next : α → Run σ → Option (Reading σ ε β)) :
    Option (Reading σ ε β) :=
  match reading.result with
  | .ok value => (next value reading.rest).map fun later =>
      ⟨later.result, later.rest, reading.log ++ later.log⟩
  | .error cause => some ⟨.error cause, reading.rest, reading.log⟩

/-- Going on comes to an end if it does behind the value that was found. -/
theorem andThen?_eq {reading : Reading σ ε α} {next? : α → Run σ → Option (Reading σ ε β)}
    {next : α → Run σ → Reading σ ε β}
    (h : ∀ value rest, reading.Yields value rest → next? value rest = some (next value rest)) :
    reading.andThen? next? = some (reading.andThen next) := by
  cases hr : reading.result with
  | ok value =>
      have hnext := h value reading.rest ⟨hr, rfl⟩
      simp only [andThen?, andThen, hr, hnext, Option.map_some]
  | error cause => simp only [andThen?, andThen, hr]

end Reading

namespace PartialReader

variable {σ α β : Type}

/-! ## Combinations -/

/-- As `Reader.keep`. -/
def keep {types : List Type} (first : PartialReader σ α)
    (others : PartialReader σ (Tuple types)) : PartialReader σ (Tuple (α :: types)) := fun input =>
  (first input).bind fun reading => reading.andThen? fun value rest =>
    (others rest).map (Reading.map (Tuple.cons value))

/-- As `Reader.skip`. -/
def skip (first : PartialReader σ Unit) (others : PartialReader σ α) : PartialReader σ α :=
  fun input => (first input).bind fun reading => reading.andThen? fun _ rest => others rest

/-- As `Reader.convert`. -/
def convert (inner : PartialReader σ α) (conversion : Conversion α β) : PartialReader σ β :=
  fun input => (inner input).map fun reading =>
    reading.andThen fun value rest => ⟨conversion.apply value, rest, []⟩

/-- As `Reader.attempts`. -/
def attempts (input : Run σ) :
    List (PartialReader σ α × Nat) → Option (Reading σ (List Failure) α)
  | [] => some (.fail [] input)
  | (reader, index) :: others => (reader input).bind fun attempt =>
      match attempt.result with
      | .ok value => some ⟨.ok value, attempt.rest, attempt.log⟩
      | .error failure => (attempts input others).map fun reading =>
          let later := reading.mapCause (failure :: ·)
          ⟨later.result, later.rest,
            attempt.log ++ .alternativeNotRead index failure :: later.log⟩

/-- As `Reader.choice`. -/
def choice (readers : List (PartialReader σ α)) : PartialReader σ α := fun input =>
  (attempts input readers.zipIdx).map (Reading.mapCause .exhausted)

/-- As `Reader.optional`. -/
def optional (inner : PartialReader σ α) : PartialReader σ (Option α) := fun input =>
  (inner input).map fun attempt =>
    match attempt.result with
    | .ok value => ⟨.ok (some value), attempt.rest, attempt.log⟩
    | .error failure => ⟨.ok none, input, attempt.log ++ [.optionalAbsent failure]⟩

/-! ## Repetition -/

/-- As `Reader.iteration`. -/
def iteration (element : PartialReader σ α) (separator : PartialReader σ Unit) (count : Nat)
    (input : Run σ) : Option (Reading σ Stop α) :=
  let separated : Option (Reading σ Stop Unit) :=
    if count = 0 then some (.succeed () input)
    else (separator input).map (Reading.mapCause .separator)
  separated.bind fun reading => reading.andThen? fun _ rest =>
    (element rest).map (Reading.mapCause .element)

/-- The loop of a repetition, which may start `turns` iterations and comes to nothing if it
needs more. It goes on after each iteration that leaves another number of bytes than it
found, be that more or less. -/
def gather [Symbol σ] (element : PartialReader σ α) (separator : PartialReader σ Unit)
    (limit : Nat) : (turns count : Nat) → Run σ → Option (Reader.Gathered σ α)
  | 0, count, input => if count < limit then none else some ⟨[], input, []⟩
  | turns + 1, count, input =>
      if count < limit then
        (iteration element separator count input).bind fun step =>
          match step.result with
          | .ok value =>
              if step.rest.units = input.units then
                some ⟨[], input, step.log ++ [.repetitionStopped count .noProgress]⟩
              else
                (gather element separator limit turns (count + 1) step.rest).map fun later =>
                  ⟨value :: later.values, later.rest, step.log ++ later.log⟩
          | .error cause => some ⟨[], input, step.log ++ [.repetitionStopped count cause]⟩
      else some ⟨[], input, []⟩

/-- As `Reader.repetition`, with a loop that may start `turns` iterations. -/
def repetition [Symbol σ] (element : PartialReader σ α)
    (separator terminator : PartialReader σ Unit) (count : CountRange) (turns : Nat) :
    PartialReader σ (List α) := fun input =>
  (gather element separator count.max.toNat turns 0 input).bind fun gathered =>
    if gathered.values.length < count.min.toNat then
      some ⟨.error (.predicate "repetition count" input.units), gathered.rest, gathered.log⟩
    else
      (terminator gathered.rest).map fun reading =>
        let closing := reading.map fun _ => gathered.values
        ⟨closing.result, closing.rest, gathered.log ++ closing.log⟩

end PartialReader

/-! ## Grammars -/

section Within

variable {σ : Type} [Symbol σ] [DecidableEq σ]

mutual

/-- Reads a value as `Grammar.read` does, with loops that may each start `turns` iterations. -/
def Grammar.readWithin (turns : Nat) {α : Type} : Grammar σ α → PartialReader σ α
  | .literal text => fun input => some (Reader.literal text input)
  | .run accepts length => fun input => some (Reader.run accepts length input)
  | .sequence slots => slots.readWithin turns
  | .choice alternatives _ => PartialReader.choice (alternatives.readersWithin turns)
  | .repetition element separator terminator count =>
      PartialReader.repetition (element.readWithin turns) (separator.readWithin turns)
        (terminator.readWithin turns) count turns
  | .skip inner => inner.readWithin turns
  | .convert inner conversion => PartialReader.convert (inner.readWithin turns) conversion
  | .optional inner => PartialReader.optional (inner.readWithin turns)
  | .endOfInput => fun input => some (Reader.endOfInput input)
  | .empty => fun input => some (Reader.empty input)
  | .integer t => fun input => some (Reader.integer t input)
  | .boolean => fun input => some (Reader.boolean input)

/-- Reads the slots as `Slots.read` does. -/
def Slots.readWithin (turns : Nat) {types : List Type} :
    Slots σ types → PartialReader σ (Tuple types)
  | .nil => fun input => some (Reader.empty input)
  | .keep first others => PartialReader.keep (first.readWithin turns) (others.readWithin turns)
  | .skip first others => PartialReader.skip (first.readWithin turns) (others.readWithin turns)

/-- The partial readers of the alternatives, in declared order. -/
def Alternatives.readersWithin (turns : Nat) {α : Type} :
    Alternatives σ α → List (PartialReader σ α)
  | .nil => []
  | .cons first others => first.readWithin turns :: others.readersWithin turns

end

end Within

/-! ## Budgets that suffice -/

theorem Reader.LeavesTail.units_lt {σ α : Type} [Symbol σ] {reader : Reader σ α}
    (h : reader.LeavesTail) {input : Run σ} {bound : Nat} (hinput : input.units < bound) :
    (reader input).rest.units < bound :=
  Nat.lt_of_le_of_lt (Run.units_le_of_suffix (h input)) hinput

namespace PartialReader

variable {σ α β : Type} [Symbol σ] {bound : Nat}

/-- On inputs of fewer than `bound` bytes the partial reader comes to the same end as the reader. -/
def Completes (reader? : PartialReader σ α) (reader : Reader σ α) (bound : Nat) : Prop :=
  ∀ input, input.units < bound → reader? input = some (reader input)

theorem completes_some (reader : Reader σ α) :
    Completes (fun input => some (reader input)) reader bound :=
  fun _ _ => rfl

theorem keep_completes {types : List Type} {first? : PartialReader σ α} {first : Reader σ α}
    {others? : PartialReader σ (Tuple types)} {others : Reader σ (Tuple types)}
    (hfirst : first?.Completes first bound) (htail : first.LeavesTail)
    (hothers : others?.Completes others bound) :
    (keep first? others?).Completes (Reader.keep first others) bound := by
  intro input hinput
  simp only [keep, hfirst input hinput, Option.bind_some]
  apply Reading.andThen?_eq
  rintro value _ ⟨_, rfl⟩
  rw [hothers _ (htail.units_lt hinput), Option.map_some]

theorem skip_completes {first? : PartialReader σ Unit} {first : Reader σ Unit}
    {others? : PartialReader σ α} {others : Reader σ α}
    (hfirst : first?.Completes first bound) (htail : first.LeavesTail)
    (hothers : others?.Completes others bound) :
    (skip first? others?).Completes (Reader.skip first others) bound := by
  intro input hinput
  simp only [skip, hfirst input hinput, Option.bind_some]
  apply Reading.andThen?_eq
  rintro _ _ ⟨_, rfl⟩
  exact hothers _ (htail.units_lt hinput)

theorem convert_completes {inner? : PartialReader σ α} {inner : Reader σ α}
    (h : inner?.Completes inner bound) (conversion : Conversion α β) :
    (convert inner? conversion).Completes (Reader.convert inner conversion) bound := by
  intro input hinput
  simp only [convert, h input hinput, Option.map_some]
  rfl

theorem optional_completes {inner? : PartialReader σ α} {inner : Reader σ α}
    (h : inner?.Completes inner bound) :
    (optional inner?).Completes (Reader.optional inner) bound := by
  intro input hinput
  simp only [optional, h input hinput, Option.map_some]
  rfl

omit [Symbol σ] in
/-- Attempts come to an end if the first does and those after it do. -/
theorem attempts_cons_eq {reader? : PartialReader σ α} {reader : Reader σ α} {index : Nat}
    {others? : List (PartialReader σ α × Nat)} {others : List (Reader σ α × Nat)} {input : Run σ}
    (hreader : reader? input = some (reader input))
    (hothers : attempts input others? = some (Reader.attempts input others)) :
    attempts input ((reader?, index) :: others?) =
      some (Reader.attempts input ((reader, index) :: others)) := by
  simp only [attempts, hreader, Option.bind_some]
  cases hr : (reader input).result with
  | ok value => simp only [Reader.attempts, hr]
  | error failure => simp only [Reader.attempts, hr, hothers, Option.map_some]

/-! ### The loop -/

section Loop

variable {element? : PartialReader σ α} {element : Reader σ α}
  {separator? : PartialReader σ Unit} {separator : Reader σ Unit}

theorem iteration_eq (helement : element?.Completes element bound)
    (hseparator : separator?.Completes separator bound) (htail : separator.LeavesTail)
    (count : Nat) {input : Run σ} (hinput : input.units < bound) :
    iteration element? separator? count input =
      some (Reader.iteration element separator count input) := by
  have hseparated : (if count = 0 then some (.succeed () input)
      else (separator? input).map (Reading.mapCause .separator) :
        Option (Reading σ Stop Unit)) =
      some (if count = 0 then .succeed () input
        else (separator input).mapCause .separator) := by
    split
    · rfl
    · rw [hseparator input hinput, Option.map_some]
  simp only [iteration, Reader.iteration, hseparated, Option.bind_some]
  apply Reading.andThen?_eq
  intro _ middle hmiddle
  have hlead : middle.units < bound := by
    rw [← hmiddle.2]
    split
    · exact hinput
    · exact htail.units_lt hinput
  rw [helement middle hlead, Option.map_some]

/-- The loop starts one iteration for each value that it gathers, and one more unless the
greatest count is reached. With fewer it comes to nothing, and otherwise it gathers. That
it goes on after every change of length makes no difference, for no part leaves more than
it was given. -/
theorem gather_eq (helement : element?.Completes element bound)
    (hseparator : separator?.Completes separator bound) (helementTail : element.LeavesTail)
    (hseparatorTail : separator.LeavesTail) (limit turns count : Nat) {input : Run σ}
    (hinput : input.units < bound) :
    gather element? separator? limit turns count input =
      if min (limit - count)
          ((Reader.gather element separator limit count input).values.length + 1) ≤ turns then
        some (Reader.gather element separator limit count input)
      else none := by
  induction turns generalizing count input with
  | zero =>
      by_cases hcount : count < limit
      · rw [gather, if_pos hcount, if_neg (by omega)]
      · rw [gather, if_neg hcount, if_pos (by omega), Reader.gather, if_neg hcount]
  | succ turns ih =>
      by_cases hcount : count < limit
      · rw [gather, if_pos hcount, iteration_eq helement hseparator hseparatorTail count hinput,
          Option.bind_some, Reader.gather, if_pos hcount]
        have htail := Run.units_le_of_suffix
          (Reader.iteration_rest_suffix helementTail hseparatorTail count input)
        generalize Reader.iteration element separator count input = step at htail
        cases hr : step.result with
        | error cause =>
            simp only [hr, List.length_nil]
            rw [if_pos (by omega)]
        | ok value =>
            by_cases hidle : step.rest.units = input.units
            · have hstop : ¬ step.rest.units < input.units := by omega
              simp only [hr, if_pos hidle, if_neg hstop, List.length_nil]
              rw [if_pos (by omega)]
            · have hprogress : step.rest.units < input.units := by omega
              have hlater := ih (count + 1) (Nat.lt_trans hprogress hinput)
              simp only [hr, if_neg hidle, if_pos hprogress, List.length_cons, hlater]
              generalize Reader.gather element separator limit (count + 1) step.rest = later
              have hturns : min (limit - (count + 1)) (later.values.length + 1) ≤ turns ↔
                  min (limit - count) (later.values.length + 1 + 1) ≤ turns + 1 := by omega
              simp only [hturns]
              split
              · rfl
              · rfl
      · rw [gather, if_neg hcount, if_pos (by omega), Reader.gather, if_neg hcount]

theorem repetition_completes {terminator? : PartialReader σ Unit} {terminator : Reader σ Unit}
    (helement : element?.Completes element bound)
    (hseparator : separator?.Completes separator bound)
    (hterminator : terminator?.Completes terminator bound) (helementTail : element.LeavesTail)
    (hseparatorTail : separator.LeavesTail) (count : CountRange) :
    (repetition element? separator? terminator? count bound).Completes
      (Reader.repetition element separator terminator count) bound := by
  intro input hinput
  have hgather := gather_eq helement hseparator helementTail hseparatorTail count.max.toNat
    bound 0 hinput
  have hlength := (Reader.gather_iterates element separator count.max.toNat 0
    input).length_add_units_le
  rw [if_pos (by omega)] at hgather
  simp only [repetition, Reader.repetition, hgather, Option.bind_some]
  generalize Reader.gather element separator count.max.toNat 0 input = gathered at hlength
  split
  · rfl
  · rw [hterminator gathered.rest (by omega), Option.map_some]

end Loop

end PartialReader

variable {σ : Type} [Symbol σ] [DecidableEq σ]

mutual

/-- Loops of as many iterations as the bound allows are enough for every grammar. -/
theorem Grammar.readWithin_completes (bound : Nat) {α : Type} : (grammar : Grammar σ α) →
    (grammar.readWithin bound).Completes grammar.read bound
  | .literal text => PartialReader.completes_some (Reader.literal text)
  | .run accepts length => PartialReader.completes_some (Reader.run accepts length)
  | .sequence slots => slots.readWithin_completes bound
  | .choice alternatives _ => fun input hinput => by
      have hattempts := alternatives.attempts_readersWithin bound 0 hinput
      simp only [Grammar.readWithin, PartialReader.choice, hattempts, Option.map_some]
      rfl
  | .repetition element separator terminator count =>
      PartialReader.repetition_completes (element.readWithin_completes bound)
        (separator.readWithin_completes bound) (terminator.readWithin_completes bound)
        element.read_leavesTail separator.read_leavesTail count
  | .skip inner => inner.readWithin_completes bound
  | .convert inner conversion =>
      PartialReader.convert_completes (inner.readWithin_completes bound) conversion
  | .optional inner => PartialReader.optional_completes (inner.readWithin_completes bound)
  | .endOfInput => PartialReader.completes_some Reader.endOfInput
  | .empty => PartialReader.completes_some Reader.empty
  | .integer t => PartialReader.completes_some (Reader.integer t)
  | .boolean => PartialReader.completes_some Reader.boolean

theorem Slots.readWithin_completes (bound : Nat) {types : List Type} : (slots : Slots σ types) →
    (slots.readWithin bound).Completes slots.read bound
  | .nil => PartialReader.completes_some Reader.empty
  | .keep first others =>
      PartialReader.keep_completes (first.readWithin_completes bound) first.read_leavesTail
        (others.readWithin_completes bound)
  | .skip first others =>
      PartialReader.skip_completes (first.readWithin_completes bound) first.read_leavesTail
        (others.readWithin_completes bound)

theorem Alternatives.attempts_readersWithin (bound : Nat) {α : Type} :
    (alternatives : Alternatives σ α) → (index : Nat) → {input : Run σ} → input.units < bound →
    PartialReader.attempts input ((alternatives.readersWithin bound).zipIdx index) =
      some (Reader.attempts input (alternatives.readers.zipIdx index))
  | .nil, _, _, _ => rfl
  | .cons first others, index, input, hinput => by
      rw [Alternatives.readersWithin, Alternatives.readers, List.zipIdx_cons, List.zipIdx_cons]
      exact PartialReader.attempts_cons_eq (first.readWithin_completes bound input hinput)
        (others.attempts_readersWithin bound (index + 1) hinput)

end

namespace Grammar

/-- The loop of a repetition starts at most one iteration more than the input has bytes,
whatever its parts accept: with a smaller budget than it needs it comes to nothing, with
any other it gathers. It finds no more values than it uses bytes, and no more than the
greatest count. A budget of one more than the bytes is enough for all loops of a grammar,
at whatever depth, so every reading ends. -/
theorem reading_ends :
    (∀ (α : Type) (element : Grammar σ α) (separator : Grammar σ Unit) (count : CountRange)
      (input : Run σ),
      (∃ started ≤ input.units + 1, ∀ turns,
        PartialReader.gather (fun rest => some (element.read rest))
            (fun rest => some (separator.read rest)) count.max.toNat turns 0 input =
          if started ≤ turns then
            some (Reader.gather element.read separator.read count.max.toNat 0 input)
          else none) ∧
      (Reader.gather element.read separator.read count.max.toNat 0 input).values.length ≤
        min input.units count.max.toNat ∧
      (Reader.gather element.read separator.read count.max.toNat 0 input).values.length +
        (Reader.gather element.read separator.read count.max.toNat 0 input).rest.units ≤
          input.units) ∧
    ∀ (α : Type) (grammar : Grammar σ α) (input : Run σ) (turns : Nat), input.units < turns →
      grammar.readWithin turns input = some (grammar.read input) := by
  constructor
  · intro α element separator count input
    have hlength := Reader.length_gather_le element.read separator.read
      (Nat.zero_le count.max.toNat) input
    have hused := (Reader.gather_iterates element.read separator.read count.max.toNat 0
      input).length_add_units_le
    refine ⟨⟨_, ?_, fun turns => PartialReader.gather_eq
      (PartialReader.completes_some element.read) (PartialReader.completes_some separator.read)
      element.read_leavesTail separator.read_leavesTail count.max.toNat turns 0
      (Nat.lt_succ_self input.units)⟩, ?_, hused⟩
    · omega
    · omega
  · intro α grammar input turns hturns
    exact grammar.readWithin_completes turns input hturns

/-- Runs of digits, of which there may be none, gathered and gathered again. -/
def digitRuns : Grammar Char (List (List (Run Char))) := many (many (runOf Char.isDigit))

/-- Both loops meet an iteration that uses nothing. The letter is left. -/
theorem reading_ends_digitRuns :
    Run.units "12a".toList < 4 ∧
      digitRuns.readWithin 4 "12a".toList = some (digitRuns.read "12a".toList) ∧
      (digitRuns.read "12a".toList).Yields [[['1', '2']]] ['a'] := by
  have hunits : Run.units "12a".toList < 4 := by decide
  exact ⟨hunits, reading_ends.2 _ digitRuns _ 4 hunits,
    ⟨by with_unfolding_all rfl, by with_unfolding_all rfl⟩⟩

/-- One iteration is not enough to see that a second one uses nothing. -/
example : digitRuns.readWithin 1 "12a".toList = none := rfl

end Grammar

end InvertibleGrammar
