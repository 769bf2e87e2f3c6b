import InvertibleGrammar.CountRange
import InvertibleGrammar.Conversion
import InvertibleGrammar.Event
import InvertibleGrammar.Numeral
import InvertibleGrammar.Tuple

/-!
# Writers

A writer appends the form of a value to a buffer, or refuses the value. What a
refused value leaves in the buffer is part of the answer: choices, repetitions
and optional parts cut the buffer back to its earlier length, sequences do not.
-/

namespace InvertibleGrammar

/-- What came of writing: success or a cause, the buffer, and the events on the way. -/
structure Writing (σ ε : Type) where
  result : Except ε Unit
  buffer : Run σ
  log : List Event

/-- A way to append a value to a buffer. -/
abbrev Writer (σ α : Type) := α → Run σ → Writing σ Failure

/-- The order in which the alternatives of a choice are tried in writing. -/
inductive PrintOrder where
  /-- The alternative declared last is tried first. -/
  | reverse
  /-- Alternatives are tried as declared. -/
  | declared
  deriving DecidableEq, Inhabited, Repr

/-- Passes between declared order and the order of trying, in either direction. -/
def PrintOrder.arrange.{u} {α : Type u} : PrintOrder → List α → List α
  | reverse, items => items.reverse
  | declared, items => items

/-- The order of trying has the same members as the declared order. -/
theorem PrintOrder.mem_arrange.{u} {γ : Type u} (order : PrintOrder) {items : List γ} {item : γ} :
    item ∈ order.arrange items ↔ item ∈ items := by
  cases order with
  | reverse => exact List.mem_reverse
  | declared => exact Iff.rfl

theorem PrintOrder.arrange_map.{u, v} {γ : Type u} {δ : Type v} (order : PrintOrder) (f : γ → δ)
    (items : List γ) : order.arrange (items.map f) = (order.arrange items).map f := by
  cases order with
  | reverse => exact List.map_reverse.symm
  | declared => rfl

namespace Writing

variable {σ ε ε' : Type}

/-- Writing that succeeded and told nothing. -/
def succeed (buffer : Run σ) : Writing σ ε := ⟨.ok (), buffer, []⟩

/-- Writing that was refused and told nothing. -/
def fail (cause : ε) (buffer : Run σ) : Writing σ ε := ⟨.error cause, buffer, []⟩

/-- Goes on writing after a success. -/
def andThen (writing : Writing σ ε) (next : Run σ → Writing σ ε) : Writing σ ε :=
  match writing.result with
  | .ok () =>
      let later := next writing.buffer
      ⟨later.result, later.buffer, writing.log ++ later.log⟩
  | .error cause => ⟨.error cause, writing.buffer, writing.log⟩

/-- Changes the cause that was met. -/
def mapCause (f : ε → ε') (writing : Writing σ ε) : Writing σ ε' :=
  ⟨writing.result.mapError f, writing.buffer, writing.log⟩

/-- Cuts the buffer back to a length if writing was refused. -/
def undoTo [Symbol σ] (length : Nat) (writing : Writing σ ε) : Writing σ ε :=
  match writing.result with
  | .ok () => writing
  | .error cause => ⟨.error cause, Run.truncate length writing.buffer, writing.log⟩

end Writing

namespace Writer

variable {σ α β : Type}

/-! ## Leaves -/

/-- Writes nothing. -/
def empty : Writer σ Unit := fun _ buffer => .succeed buffer

/-- Writes a fixed run. -/
def literal (text : Run σ) : Writer σ Unit := fun _ buffer => .succeed (buffer ++ text)

/-- Writes `true` or `false`. -/
def boolean [Symbol σ] : Writer σ Bool := fun value buffer =>
  .succeed (buffer ++ Run.spelling (if value then "true" else "false"))

/-- Writes the numeral of an integer. -/
def integer [Symbol σ] (t : IntType) : Writer σ t.Value := fun value buffer =>
  .succeed (buffer ++ Numeral.spelling value.val)

/-- Writes a run whose symbols are all accepted and whose length is allowed. -/
def run (accepts : σ → Bool) (length : CountRange) : Writer σ (Run σ) := fun run buffer =>
  if !run.all accepts then .fail (.unrepresentable "prefix predicate") buffer
  else if !length.contains run.length then .fail (.unrepresentable "prefix length") buffer
  else .succeed (buffer ++ run)

/-! ## Sequences -/

/-- Writes the first value of a tuple, then the others. -/
def keep {types : List Type} (first : Writer σ α) (others : Writer σ (Tuple types)) :
    Writer σ (Tuple (α :: types)) := fun tuple buffer =>
  (first tuple.head buffer).andThen (others tuple.tail)

/-- Writes something that needs no value, then those that follow. -/
def skip (first : Writer σ Unit) (others : Writer σ α) : Writer σ α := fun value buffer =>
  (first () buffer).andThen (others value)

/-- Converts a value back and writes what comes out. -/
def convert (inner : Writer σ α) (conversion : Conversion α β) : Writer σ β := fun value buffer =>
  match conversion.unapply value with
  | .ok before => inner before buffer
  | .error cause => .fail cause buffer

/-! ## Choice -/

/-- Tries numbered writers until one succeeds. After each refusal the buffer is cut
back to `length`. -/
def attempts [Symbol σ] (value : α) (length : Nat) :
    List (Writer σ α × Nat) → Run σ → Writing σ (List Failure)
  | [], buffer => .fail [] buffer
  | (writer, index) :: others, buffer =>
      let attempt := writer value buffer
      match attempt.result with
      | .ok () => ⟨.ok (), attempt.buffer, attempt.log⟩
      | .error failure =>
          let later := (attempts value length others (Run.truncate length attempt.buffer)).mapCause
            (failure :: ·)
          ⟨later.result, later.buffer,
            attempt.log ++ .alternativeNotWritten index failure :: later.log⟩

/-- Writes with the first of the writers that succeeds in the order of trying. -/
def choice [Symbol σ] (writers : List (Writer σ α)) (order : PrintOrder) :
    Writer σ α := fun value buffer =>
  (attempts value buffer.units (order.arrange writers.zipIdx) buffer).mapCause fun failures =>
    .exhausted (order.arrange failures)

/-- Writes a value that is there and nothing for one that is not. -/
def optional [Symbol σ] (inner : Writer σ α) : Writer σ (Option α) := fun value buffer =>
  match value with
  | none => .succeed buffer
  | some value => (inner value buffer).undoTo buffer.units

/-! ## Repetition -/

/-- Writes a separator, unless `first` says that no value came before, and an
element. An iteration that wrote nothing is refused. -/
def iteration [Symbol σ] (element : Writer σ α) (separator : Writer σ Unit) (first : Bool)
    (value : α) (buffer : Run σ) : Writing σ Failure :=
  let separated := if first then .succeed buffer else separator () buffer
  let written := separated.andThen (element value)
  written.andThen fun now =>
    if now.units = buffer.units then .fail (.unrepresentable "repetition progress") now
    else .succeed now

/-- Writes each value in an iteration of its own, then the terminator. -/
def join [Symbol σ] (element : Writer σ α) (separator terminator : Writer σ Unit) :
    Bool → List α → Run σ → Writing σ Failure
  | _, [], buffer => terminator () buffer
  | first, value :: others, buffer =>
      (iteration element separator first value buffer).andThen
        (join element separator terminator false others)

/-- Writes an allowed number of values separated from each other, then the terminator. -/
def repetition [Symbol σ] (element : Writer σ α) (separator terminator : Writer σ Unit)
    (count : CountRange) : Writer σ (List α) := fun values buffer =>
  if count.contains values.length then
    (join element separator terminator true values buffer).undoTo buffer.units
  else .fail (.unrepresentable "repetition count") buffer

end Writer

end InvertibleGrammar
