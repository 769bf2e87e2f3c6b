import InvertibleGrammar.Grammar.Directions

/-!
# Whole inputs and whole values

Decoding starts a reading on an input, encoding starts a writing on an empty
buffer. Either tells its own failure once, after everything told on the way.
-/

namespace InvertibleGrammar

/-- What an operation came to, and the events on the way. -/
structure Outcome (α : Type) where
  result : Except Failure α
  log : List Event

namespace Grammar

variable {σ α : Type} [Symbol σ]

/-- Writes a value on its own. -/
def encode (grammar : Grammar σ α) (value : α) : Outcome (Run σ) :=
  let writing := grammar.write value []
  match writing.result with
  | .ok () => ⟨.ok writing.buffer, writing.log⟩
  | .error failure => ⟨.error failure, writing.log ++ [.encodeFailed failure]⟩

variable [DecidableEq σ]

/-- Reads a value from the front of an input, and gives it with what is left. -/
def decode (grammar : Grammar σ α) (input : Run σ) : Outcome (α × Run σ) :=
  let reading := grammar.read input
  match reading.result with
  | .ok value => ⟨.ok (value, reading.rest), reading.log⟩
  | .error failure =>
      ⟨.error failure,
        reading.log ++ [.decodeFailed failure (failure.offset? input.units)]⟩

/-- Reads a value that must use up the input. -/
def decodeExact (grammar : Grammar σ α) (input : Run σ) : Outcome α :=
  let decoded := grammar.decode input
  match decoded.result with
  | .ok (value, rest) =>
      if rest.isEmpty then ⟨.ok value, decoded.log⟩
      else ⟨.error (.extraData rest.units), decoded.log⟩
  | .error failure => ⟨.error failure, decoded.log⟩

end Grammar

end InvertibleGrammar
