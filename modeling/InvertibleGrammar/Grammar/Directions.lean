import InvertibleGrammar.Grammar.Basic

/-!
# The two directions of a grammar

Each node of a grammar reads and writes through the readers and writers of its
parts. Both definitions recurse on the tree, so both directions end on every
input and every value.
-/

namespace InvertibleGrammar

variable {σ : Type} [Symbol σ]

mutual

/-- Appends the form of a value to a buffer. -/
def Grammar.write {α : Type} : Grammar σ α → Writer σ α
  | .literal text => Writer.literal text
  | .run accepts length => Writer.run accepts length
  | .sequence slots => slots.write
  | .choice alternatives order => Writer.choice alternatives.writers order
  | .repetition element separator terminator count =>
      Writer.repetition element.write separator.write terminator.write count
  | .skip inner => inner.write
  | .convert inner conversion => Writer.convert inner.write conversion
  | .optional inner => Writer.optional inner.write
  | .endOfInput => Writer.empty
  | .empty => Writer.empty
  | .integer t => Writer.integer t
  | .boolean => Writer.boolean

/-- Writes the slots in order up to the first refusal. -/
def Slots.write {types : List Type} : Slots σ types → Writer σ (Tuple types)
  | .nil => Writer.empty
  | .keep first others => Writer.keep first.write others.write
  | .skip first others => Writer.skip first.write others.write

/-- The writers of the alternatives, in declared order. -/
def Alternatives.writers {α : Type} : Alternatives σ α → List (Writer σ α)
  | .nil => []
  | .cons first others => first.write :: others.writers

end

theorem Alternatives.writers_eq_map {α : Type} : (alternatives : Alternatives σ α) →
    alternatives.writers = alternatives.toList.map fun grammar => grammar.write
  | .nil => rfl
  | .cons first others => by
      rw [writers, toList, List.map_cons, others.writers_eq_map]

variable [DecidableEq σ]

mutual

/-- Reads a value of the grammar from the front of an input. -/
def Grammar.read {α : Type} : Grammar σ α → Reader σ α
  | .literal text => Reader.literal text
  | .run accepts length => Reader.run accepts length
  | .sequence slots => slots.read
  | .choice alternatives _ => Reader.choice alternatives.readers
  | .repetition element separator terminator count =>
      Reader.repetition element.read separator.read terminator.read count
  | .skip inner => inner.read
  | .convert inner conversion => Reader.convert inner.read conversion
  | .optional inner => Reader.optional inner.read
  | .endOfInput => Reader.endOfInput
  | .empty => Reader.empty
  | .integer t => Reader.integer t
  | .boolean => Reader.boolean

/-- Reads the slots in order up to the first failure. -/
def Slots.read {types : List Type} : Slots σ types → Reader σ (Tuple types)
  | .nil => Reader.empty
  | .keep first others => Reader.keep first.read others.read
  | .skip first others => Reader.skip first.read others.read

/-- The readers of the alternatives, in declared order. -/
def Alternatives.readers {α : Type} : Alternatives σ α → List (Reader σ α)
  | .nil => []
  | .cons first others => first.read :: others.readers

end

theorem Alternatives.readers_eq_map {α : Type} : (alternatives : Alternatives σ α) →
    alternatives.readers = alternatives.toList.map fun grammar => grammar.read
  | .nil => rfl
  | .cons first others => by
      rw [readers, toList, List.map_cons, others.readers_eq_map]

end InvertibleGrammar
