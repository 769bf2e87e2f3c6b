import InvertibleGrammar.Proofs.Logs

/-!
# Attempts within attempts

An attempt is a reading of an input or a writing behind a buffer. A grammar makes it through
attempts of its parts, in an order that the grammar decides, and it may report something right
behind one of them. What the whole attempt tells is what they tell, in that order, each
followed by its report.
-/

namespace InvertibleGrammar

/-- The reading of an input, or the writing of a value behind a buffer. -/
inductive Attempt (σ : Type) : Type 1 where
  | read {α : Type} (grammar : Grammar σ α) (input : Run σ)
  | write {α : Type} (grammar : Grammar σ α) (value : α) (buffer : Run σ)

/-- An attempt made for another one, and what is reported right behind it. -/
structure Step (σ : Type) where
  attempt : Attempt σ
  report? : Option Event

variable {σ : Type} [Symbol σ]

/-! ## Steps of a writing -/

/-- Parts are written up to the first refusal. -/
def Part.steps : List (Part σ) → Run σ → List (Step σ)
  | [], _ => []
  | part :: others, buffer =>
      ⟨.write part.grammar part.value buffer, none⟩ ::
        (part.write buffer).left?.elim [] fun next => steps others next

/-- The iterations of a repetition are written up to the first refusal, then the terminator. -/
def Grammar.joinSteps {α : Type} (element : Grammar σ α) (separator terminator : Grammar σ Unit) :
    Bool → List α → Run σ → List (Step σ)
  | _, [], buffer => [⟨.write terminator () buffer, none⟩]
  | first, value :: others, buffer =>
      Part.steps (Part.iteration element separator first value) buffer ++
        (Writer.iteration element.write separator.write first value buffer).left?.elim []
          fun next => joinSteps element separator terminator false others next

/-- The attempts that a grammar makes to write a value behind a buffer. -/
def Grammar.writeSteps : {α : Type} → Grammar σ α → α → Run σ → List (Step σ)
  | _, .sequence slots, tuple, buffer => Part.steps (slots.parts tuple) buffer
  -- Each alternative starts on the buffer itself.
  | _, .choice alternatives order, value, buffer =>
      let tried := upToFirst
        (fun entry => (cause? (entry.1.write value buffer).result).isNone)
        (order.arrange alternatives.toList.zipIdx)
      tried.map fun entry => ⟨.write entry.1 value buffer,
        (cause? (entry.1.write value buffer).result).map (.alternativeNotWritten entry.2)⟩
  | _, .repetition element separator terminator count, values, buffer =>
      if count.contains values.length then
        joinSteps element separator terminator true values buffer
      else []
  | _, .skip inner, value, buffer => [⟨.write inner value buffer, none⟩]
  | _, .convert inner conversion, value, buffer =>
      match conversion.unapply value with
      | .ok before => [⟨.write inner before buffer, none⟩]
      | .error _ => []
  | _, .optional inner, value, buffer =>
      value.elim [] fun present => [⟨.write inner present buffer, none⟩]
  | _, _, _, _ => []

variable [DecidableEq σ]

/-! ## Steps of a reading -/

/-- Slots are read up to the first failure, each from where the one before it ended. -/
def Slot.steps : List (Slot σ) → Run σ → List (Step σ)
  | [], _ => []
  | slot :: others, input =>
      ⟨.read slot.grammar input, none⟩ ::
        (slot.grammar.read input).found?.elim [] fun found => steps others found.2

/-- An iteration reads a separator, unless it is the first, and then an element. If it ends
the repetition, that is reported behind the last of the two that was read. -/
def Grammar.iterationSteps {α : Type} (element : Grammar σ α) (separator : Grammar σ Unit)
    (count : Nat) (input : Run σ) : List (Step σ) :=
  let report? := (Reader.stop? element.read separator.read count input).map
    (.repetitionStopped count)
  if count = 0 then [⟨.read element input, report?⟩]
  else
    match (separator.read input).found? with
    | none => [⟨.read separator input, report?⟩]
    | some (_, start) => [⟨.read separator input, none⟩, ⟨.read element start, report?⟩]

/-- Iterations are made until there are `more` of them or one ends the repetition. -/
def Grammar.gatherSteps {α : Type} (element : Grammar σ α) (separator : Grammar σ Unit) :
    (more count : Nat) → (input : Run σ) → List (Step σ)
  | 0, _, _ => []
  | more + 1, count, input =>
      iterationSteps element separator count input ++
        match Reader.stop? element.read separator.read count input with
        | none => gatherSteps element separator more (count + 1)
            (Reader.iteration element.read separator.read count input).rest
        | some _ => []

/-- The attempts that a grammar makes to read an input. -/
def Grammar.readSteps : {α : Type} → Grammar σ α → Run σ → List (Step σ)
  | _, .sequence slots, input => Slot.steps slots.toList input
  -- Each alternative starts on the input itself.
  | _, .choice alternatives _, input =>
      let tried := upToFirst
        (fun entry => (cause? (entry.1.read input).result).isNone) alternatives.toList.zipIdx
      tried.map fun entry => ⟨.read entry.1 input,
        (cause? (entry.1.read input).result).map (.alternativeNotRead entry.2)⟩
  | _, .repetition element separator terminator count, input =>
      let gathered := Reader.gather element.read separator.read count.max.toNat 0 input
      gatherSteps element separator count.max.toNat 0 input ++
        if gathered.values.length < count.min.toNat then []
        else [⟨.read terminator gathered.rest, none⟩]
  | _, .skip inner, input => [⟨.read inner input, none⟩]
  | _, .convert inner _, input => [⟨.read inner input, none⟩]
  | _, .optional inner, input =>
      [⟨.read inner input, (cause? (inner.read input).result).map .optionalAbsent⟩]
  | _, _, _ => []

namespace Attempt

/-- Everything told during the attempt. -/
def log : Attempt σ → List Event
  | read grammar input => (grammar.read input).log
  | write grammar value buffer => (grammar.write value buffer).log

/-- The failure of the attempt. -/
def failure? : Attempt σ → Option Failure
  | read grammar input => cause? (grammar.read input).result
  | write grammar value buffer => cause? (grammar.write value buffer).result

/-- The attempts that the attempt makes itself, in order. -/
def steps : Attempt σ → List (Step σ)
  | read grammar input => grammar.readSteps input
  | write grammar value buffer => grammar.writeSteps value buffer

/-- What the attempt reports itself, in order. -/
def reports (attempt : Attempt σ) : List Event := attempt.steps.filterMap Step.report?

end Attempt

/-- What is told during a step, and then what is reported behind it. -/
def Step.log (step : Step σ) : List Event := step.attempt.log ++ step.report?.toList

/-! ## A log is that of the steps -/

theorem Part.writeAll_log (parts : List (Part σ)) (buffer : Run σ) :
    (writeAll parts buffer).log = (steps parts buffer).flatMap Step.log := by
  induction parts generalizing buffer with
  | nil => rfl
  | cons part others ih =>
      rw [writeAll, Writing.andThen_log, steps, List.flatMap_cons]
      have hstep : Step.log ⟨.write part.grammar part.value buffer, none⟩ =
          (part.write buffer).log := List.append_nil _
      rw [hstep]
      cases (part.write buffer).left? with
      | none => rfl
      | some next => simp only [Option.elim_some, ih]

section Repetition

variable {α : Type} {element : Grammar σ α} {separator terminator : Grammar σ Unit}

/-- What is told in writing an iteration comes from its parts. Looking at what they wrote tells
nothing. -/
theorem Part.iteration_log (first : Bool) (value : α) (buffer : Run σ) :
    (Writer.iteration element.write separator.write first value buffer).log =
      (steps (iteration element separator first value) buffer).flatMap Step.log := by
  rw [iteration_eq, Writing.andThen_log, ← writeAll_log]
  cases (writeAll (iteration element separator first value) buffer).left? with
  | none => exact List.append_nil _
  | some now =>
      simp only [Option.elim_some]
      split
      · exact List.append_nil _
      · exact List.append_nil _

theorem Grammar.join_log (first : Bool) (values : List α) (buffer : Run σ) :
    (Writer.join element.write separator.write terminator.write first values buffer).log =
      (joinSteps element separator terminator first values buffer).flatMap Step.log := by
  induction values generalizing first buffer with
  | nil => simp [Writer.join, joinSteps, Step.log, Attempt.log]
  | cons value others ih =>
      rw [Writer.join, Writing.andThen_log, joinSteps, List.flatMap_append, Part.iteration_log]
      cases (Writer.iteration element.write separator.write first value buffer).left? with
      | none => rfl
      | some next => simp only [Option.elim_some, ih]

/-- An iteration and the report that it ends the repetition, if it does. -/
theorem Grammar.iteration_log (count : Nat) (input : Run σ) :
    (Reader.iteration element.read separator.read count input).log ++
        ((Reader.stop? element.read separator.read count input).map
          (.repetitionStopped count)).toList =
      (iterationSteps element separator count input).flatMap Step.log := by
  rw [Reader.iteration_log, iterationSteps]
  by_cases hcount : count = 0
  · simp [hcount, Step.log, Attempt.log]
  · cases hfound : (separator.read input).found? with
    | none => simp [hcount, Step.log, Attempt.log]
    | some found => simp [hcount, Step.log, Attempt.log]

theorem Grammar.gather_log {limit more count : Nat} (hlimit : count + more = limit)
    (input : Run σ) :
    (Reader.gather element.read separator.read limit count input).log =
      (gatherSteps element separator more count input).flatMap Step.log := by
  induction more generalizing count input with
  | zero => exact Reader.gather_log_of_full (by omega) _ _ _
  | succ more ih =>
      rw [Reader.gather_log (by omega), gatherSteps, List.flatMap_append, ← iteration_log]
      cases Reader.stop? element.read separator.read count input with
      | some cause => simp
      | none => simp [ih (by omega : count + 1 + more = limit)]

end Repetition

/-- The first slot tells its events first, and the others theirs if it found a value. -/
theorem Slot.log_cons (slot : Slot σ) (others : List (Slot σ)) (input : Run σ) :
    (steps (slot :: others) input).flatMap Step.log =
      (slot.grammar.read input).log ++ (slot.grammar.read input).found?.elim []
        fun found => (steps others found.2).flatMap Step.log := by
  have hstep : Step.log ⟨.read slot.grammar input, none⟩ = (slot.grammar.read input).log :=
    List.append_nil _
  rw [steps, List.flatMap_cons, hstep]
  cases (slot.grammar.read input).found? with
  | none => rfl
  | some found => rfl

theorem Slots.read_log {types : List Type} : (slots : Slots σ types) → (input : Run σ) →
    (slots.read input).log = (Slot.steps slots.toList input).flatMap Step.log
  | .nil, _ => rfl
  | .keep first others, input => by
      simp only [read, Reader.keep_log, toList, Slot.log_cons, others.read_log]
  | .skip first others, input => by
      simp only [read, Reader.skip_log, toList, Slot.log_cons, others.read_log]

namespace Grammar

variable {α : Type}

theorem read_log (grammar : Grammar σ α) (input : Run σ) :
    (grammar.read input).log = (grammar.readSteps input).flatMap Step.log := by
  cases grammar with
  | literal text => exact Reader.words_log _ _ _
  | boolean => exact Reader.words_log _ _ _
  | integer t => exact Reader.integer_log t input
  | run accepts length => exact Reader.run_log accepts length input
  | endOfInput => exact Reader.endOfInput_log input
  | empty => rfl
  | sequence slots => exact slots.read_log input
  | choice alternatives order =>
      rw [read, Reader.choice, Reading.mapCause_log, Reader.attempts_log,
        alternatives.readers_eq_map, List.zipIdx_map, upToFirst_map, List.flatMap_map,
        readSteps, List.flatMap_map]
      rfl
  | repetition element separator terminator count =>
      rw [read, Reader.repetition_log, readSteps, List.flatMap_append,
        gather_log (Nat.zero_add count.max.toNat)]
      split
      · rfl
      · simp [Step.log, Attempt.log]
  | skip inner => simp [read, readSteps, Step.log, Attempt.log]
  | convert inner conversion => simp [read, Reader.convert_log, readSteps, Step.log, Attempt.log]
  | optional inner => simp [read, Reader.optional_log, readSteps, Step.log, Attempt.log]

theorem write_log (grammar : Grammar σ α) (value : α) (buffer : Run σ) :
    (grammar.write value buffer).log = (grammar.writeSteps value buffer).flatMap Step.log := by
  cases grammar with
  | literal text => rfl
  | boolean => rfl
  | integer t => rfl
  | run accepts length => exact Writer.run_log accepts length value buffer
  | endOfInput => rfl
  | empty => rfl
  | sequence slots =>
      rw [write, slots.write_eq_writeAll, Part.writeAll_log]
      rfl
  | choice alternatives order =>
      have harranged : ∀ entry ∈ order.arrange alternatives.writers.zipIdx,
          entry.1.AppendOnly := by
        intro entry hentry
        exact alternatives.writers_appendOnly entry.1
          (List.fst_mem_of_mem_zipIdx (order.mem_arrange.mp hentry))
      rw [write, Writer.choice, Writing.mapCause_log, Writer.attempts_log harranged,
        alternatives.writers_eq_map, List.zipIdx_map, order.arrange_map, upToFirst_map,
        List.flatMap_map, writeSteps, List.flatMap_map]
      rfl
  | repetition element separator terminator count =>
      rw [write, Writer.repetition, writeSteps]
      split
      · rw [Writing.undoTo_log, join_log]
      · rfl
  | skip inner => simp [write, writeSteps, Step.log, Attempt.log]
  | convert inner conversion =>
      rw [write, Writer.convert, writeSteps]
      cases conversion.unapply value with
      | ok before => simp [Step.log, Attempt.log]
      | error cause => rfl
  | optional inner =>
      cases value with
      | none => rfl
      | some present => simp [write, Writer.optional, writeSteps, Step.log, Attempt.log]

end Grammar

/-- An attempt tells what its steps tell, in order, and nothing else. -/
theorem Attempt.log_eq (attempt : Attempt σ) : attempt.log = attempt.steps.flatMap Step.log := by
  cases attempt with
  | read grammar input => exact grammar.read_log input
  | write grammar value buffer => exact grammar.write_log value buffer

end InvertibleGrammar
