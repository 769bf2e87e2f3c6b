import InvertibleGrammar.CountRange
import InvertibleGrammar.Conversion
import InvertibleGrammar.Event
import InvertibleGrammar.Numeral
import InvertibleGrammar.Tuple

/-!
# Readers

A reader takes a value from the front of an input. It tells what is left of the
input also when it fails, since some combinations go back to where they started
and others stay where the failure left them.
-/

namespace InvertibleGrammar

/-- What came of reading: a value or a cause, the input that is left, and the events on the way. -/
structure Reading (σ ε α : Type) where
  result : Except ε α
  rest : Run σ
  log : List Event

/-- A way to take a value from the front of an input. -/
abbrev Reader (σ α : Type) := Run σ → Reading σ Failure α

namespace Reading

variable {σ ε ε' α β : Type}

/-- Reading that ended with a value and told nothing. -/
def succeed (value : α) (rest : Run σ) : Reading σ ε α := ⟨.ok value, rest, []⟩

/-- Reading that ended with a cause and told nothing. -/
def fail (cause : ε) (rest : Run σ) : Reading σ ε α := ⟨.error cause, rest, []⟩

/-- Goes on reading from where a value was found. -/
def andThen (reading : Reading σ ε α) (next : α → Run σ → Reading σ ε β) : Reading σ ε β :=
  match reading.result with
  | .ok value =>
      let later := next value reading.rest
      ⟨later.result, later.rest, reading.log ++ later.log⟩
  | .error cause => ⟨.error cause, reading.rest, reading.log⟩

/-- Changes the value that was found. -/
def map (f : α → β) (reading : Reading σ ε α) : Reading σ ε β :=
  ⟨reading.result.map f, reading.rest, reading.log⟩

/-- Changes the cause that was met. -/
def mapCause (f : ε → ε') (reading : Reading σ ε α) : Reading σ ε' α :=
  ⟨reading.result.mapError f, reading.rest, reading.log⟩

end Reading

namespace Reader

variable {σ α β : Type}

/-! ## Leaves -/

/-- Reads nothing. -/
def empty : Reader σ Unit := fun input => .succeed () input

/-- Reads nothing, and only at the end of the input. -/
def endOfInput [Symbol σ] : Reader σ Unit := fun input =>
  if input.isEmpty then .succeed () input
  else .fail (.unexpected "end of input" input.units) input

/-- The cause for which none of some words starts an input: the input ended
within one of them, or it holds something else. -/
def missing [DecidableEq σ] [Symbol σ] (expected : String) (words : List (Run σ))
    (input : Run σ) : Failure :=
  if words.any fun word => input.units < word.units && input.leads word then
    .endOfInput expected
  else .unexpected expected input.units

/-- Reads the first of the words that starts the input, and gives its meaning. -/
def words [DecidableEq σ] [Symbol σ] (expected : String) (meanings : List (Run σ × α)) :
    Reader σ α := fun input =>
  match meanings.findSome? fun (word, value) => (word.strip? input).map fun rest => (value, rest) with
  | some (value, rest) => .succeed value rest
  | none => .fail (missing expected (meanings.map Prod.fst) input) input

/-- Reads a fixed run. -/
def literal [DecidableEq σ] [Symbol σ] (text : Run σ) : Reader σ Unit := words "literal" [(text, ())]

/-- Reads `true` or `false`. -/
def boolean [DecidableEq σ] [Symbol σ] : Reader σ Bool :=
  words "boolean" [(Run.spelling "true", true), (Run.spelling "false", false)]

/-- Reads a numeral of the type. -/
def integer [Symbol σ] (t : IntType) : Reader σ t.Value := fun input =>
  match Numeral.read t input with
  | .ok (value, rest) => .succeed value rest
  | .error cause => .fail cause input

/-- Reads the longest run of accepted symbols that the greatest length allows. A
run below the least length is refused, and stays used up. -/
def run [Symbol σ] (accepts : σ → Bool) (length : CountRange) : Reader σ (Run σ) := fun input =>
  let (run, rest) := Run.splitWhile length.max.toNat accepts input
  if run.length < length.min.toNat then .fail (.predicate "prefix length" input.units) rest
  else .succeed run rest

/-! ## Sequences -/

/-- Reads a value and puts it in front of those that follow. -/
def keep {types : List Type} (first : Reader σ α) (others : Reader σ (Tuple types)) :
    Reader σ (Tuple (α :: types)) := fun input =>
  (first input).andThen fun value rest => (others rest).map (Tuple.cons value)

/-- Reads something that leaves no value, then those that follow. -/
def skip (first : Reader σ Unit) (others : Reader σ α) : Reader σ α := fun input =>
  (first input).andThen fun _ rest => others rest

/-- Converts what was read. -/
def convert (inner : Reader σ α) (conversion : Conversion α β) : Reader σ β := fun input =>
  (inner input).andThen fun value rest => ⟨conversion.apply value, rest, []⟩

/-! ## Choice -/

/-- Tries numbered readers on the same input until one succeeds. -/
def attempts (input : Run σ) : List (Reader σ α × Nat) → Reading σ (List Failure) α
  | [] => .fail [] input
  | (reader, index) :: others =>
      let attempt := reader input
      match attempt.result with
      | .ok value => ⟨.ok value, attempt.rest, attempt.log⟩
      | .error failure =>
          let later := (attempts input others).mapCause (failure :: ·)
          ⟨later.result, later.rest,
            attempt.log ++ .alternativeNotRead index failure :: later.log⟩

/-- Reads with the first of the readers that succeeds, each from the same place. -/
def choice (readers : List (Reader σ α)) : Reader σ α := fun input =>
  (attempts input readers.zipIdx).mapCause .exhausted

/-- Reads a value if there is one; a failure is taken back. -/
def optional (inner : Reader σ α) : Reader σ (Option α) := fun input =>
  let attempt := inner input
  match attempt.result with
  | .ok value => ⟨.ok (some value), attempt.rest, attempt.log⟩
  | .error failure => ⟨.ok none, input, attempt.log ++ [.optionalAbsent failure]⟩

/-! ## Repetition -/

/-- Reads a separator, unless `count` says that no value came before, and an element. -/
def iteration (element : Reader σ α) (separator : Reader σ Unit) (count : Nat) (input : Run σ) :
    Reading σ Stop α :=
  let separated : Reading σ Stop Unit :=
    if count = 0 then .succeed () input else (separator input).mapCause .separator
  separated.andThen fun _ rest => (element rest).mapCause .element

/-- The values that a repetition gathered, the input that is left, and the events on the way. -/
structure Gathered (σ α : Type) where
  values : List α
  rest : Run σ
  log : List Event

/-- Gathers values, `count` having come before, until there are `limit` or an
iteration fails or uses nothing. Whatever the last iteration used is given back. -/
def gather [Symbol σ] (element : Reader σ α) (separator : Reader σ Unit) (limit count : Nat)
    (input : Run σ) : Gathered σ α :=
  if count < limit then
    let step := iteration element separator count input
    match step.result with
    | .ok value =>
        if step.rest.units < input.units then
          let later := gather element separator limit (count + 1) step.rest
          ⟨value :: later.values, later.rest, step.log ++ later.log⟩
        else ⟨[], input, step.log ++ [.repetitionStopped count .noProgress]⟩
    | .error cause => ⟨[], input, step.log ++ [.repetitionStopped count cause]⟩
  else ⟨[], input, []⟩
termination_by input.units

/-- Reads values separated from each other, then the terminator. Too few values
are refused before the terminator is read. -/
def repetition [Symbol σ] (element : Reader σ α) (separator terminator : Reader σ Unit)
    (count : CountRange) : Reader σ (List α) := fun input =>
  let gathered := gather element separator count.max.toNat 0 input
  if gathered.values.length < count.min.toNat then
    ⟨.error (.predicate "repetition count" input.units), gathered.rest, gathered.log⟩
  else
    let closing := (terminator gathered.rest).map fun _ => gathered.values
    ⟨closing.result, closing.rest, gathered.log ++ closing.log⟩

end Reader

end InvertibleGrammar
