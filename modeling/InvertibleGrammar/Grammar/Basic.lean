import InvertibleGrammar.Reader
import InvertibleGrammar.Writer

/-!
# Grammars

A grammar is a tree that describes a format once, for reading and for writing.
Its type is that of the values it describes. The tree says what the format is;
what it does in either direction is defined by recursion on it.
-/

namespace InvertibleGrammar

mutual

/-- A format over symbols `σ`, indexed by the type of its values. -/
inductive Grammar (σ : Type) : Type → Type 1 where
  /-- A fixed run. -/
  | literal (text : Run σ) : Grammar σ Unit
  /-- The longest run of accepted symbols, of an allowed length. -/
  | run (accepts : σ → Bool) (length : CountRange) : Grammar σ (Run σ)
  /-- One slot after the other; the kept values form the value. -/
  | sequence {types : List Type} (slots : Slots σ types) : Grammar σ (Tuple types)
  /-- One of several formats for values of the same type. -/
  | choice {α : Type} (alternatives : Alternatives σ α) (order : PrintOrder) : Grammar σ α
  /-- Any allowed number of elements, with a separator between them and a terminator at the end. -/
  | repetition {α : Type} (element : Grammar σ α) (separator terminator : Grammar σ Unit)
      (count : CountRange) : Grammar σ (List α)
  /-- A format that stands for its input alone. -/
  | skip (inner : Grammar σ Unit) : Grammar σ Unit
  /-- A format whose values are converted. -/
  | convert {α β : Type} (inner : Grammar σ α) (conversion : Conversion α β) : Grammar σ β
  /-- A format that may be absent. -/
  | optional {α : Type} (inner : Grammar σ α) : Grammar σ (Option α)
  /-- Nothing, at the end of the input only. -/
  | endOfInput : Grammar σ Unit
  /-- Nothing, anywhere. -/
  | empty : Grammar σ Unit
  /-- A numeral of an integer type. -/
  | integer (t : IntType) : Grammar σ t.Value
  /-- The word `true` or `false`. -/
  | boolean : Grammar σ Bool

/-- The slots of a sequence, indexed by the types of the kept values. -/
inductive Slots (σ : Type) : List Type → Type 1 where
  /-- No slot. -/
  | nil : Slots σ []
  /-- A slot whose value is kept. -/
  | keep {α : Type} {types : List Type} (first : Grammar σ α) (others : Slots σ types) :
      Slots σ (α :: types)
  /-- A slot that leaves no value. -/
  | skip {types : List Type} (first : Grammar σ Unit) (others : Slots σ types) : Slots σ types

/-- The alternatives of a choice, in declared order. -/
inductive Alternatives (σ : Type) : Type → Type 1 where
  /-- No alternative. -/
  | nil {α : Type} : Alternatives σ α
  /-- An alternative before the others. -/
  | cons {α : Type} (first : Grammar σ α) (others : Alternatives σ α) : Alternatives σ α

end

/-- The alternatives that a list declares. -/
def Alternatives.ofList {σ α : Type} : List (Grammar σ α) → Alternatives σ α
  | [] => .nil
  | grammar :: others => .cons grammar (ofList others)

/-- The declared alternatives as a list. -/
def Alternatives.toList {σ α : Type} : Alternatives σ α → List (Grammar σ α)
  | .nil => []
  | .cons grammar others => grammar :: others.toList

namespace Grammar

variable {σ α β : Type}

/-- A fixed text, spelled in the symbols of the format. -/
def text [Symbol σ] (text : String) : Grammar σ Unit := .literal (Run.spelling text)

/-- The longest run of accepted symbols, of any length. -/
def runOf (accepts : σ → Bool) : Grammar σ (Run σ) := .run accepts .any

/-- Several formats, the last tried first in writing. -/
def oneOf (alternatives : List (Grammar σ α)) : Grammar σ α :=
  .choice (.ofList alternatives) .reverse

/-- Either of two formats, the second tried first in writing. -/
def orElse (first second : Grammar σ α) : Grammar σ α := oneOf [first, second]

/-- Any number of elements, with nothing between them or after them. -/
def many (element : Grammar σ α) : Grammar σ (List α) :=
  .repetition element .empty .empty .any

/-- Any number of elements with a separator between them. -/
def separated (element : Grammar σ α) (separator : Grammar σ Unit) : Grammar σ (List α) :=
  .repetition element separator .empty .any

/-- An allowed number of elements, with nothing between them or after them. -/
def counted (element : Grammar σ α) (count : CountRange) : Grammar σ (List α) :=
  .repetition element .empty .empty count

end Grammar

end InvertibleGrammar
