/-!
# Tuples

The values kept by a sequence form a tuple: nothing for no value, the bare value
for one, and nested pairs from two on. `cons`, `head` and `tail` hide the three
shapes, so that tuples are built and taken apart one value at a time.
-/

namespace InvertibleGrammar

/-- One value of each of the types, with a single value standing for itself. -/
def Tuple : List Type → Type
  | [] => Unit
  | [α] => α
  | α :: β :: types => α × Tuple (β :: types)

namespace Tuple

variable {α : Type} {types : List Type}

/-- Puts a value in front of a tuple. -/
def cons : {types : List Type} → α → Tuple types → Tuple (α :: types)
  | [], value, _ => value
  | _ :: _, value, others => (value, others)

/-- The first value of a tuple. -/
def head : {types : List Type} → Tuple (α :: types) → α
  | [], value => value
  | _ :: _, (value, _) => value

/-- The values after the first. -/
def tail : {types : List Type} → Tuple (α :: types) → Tuple types
  | [], _ => ()
  | _ :: _, (_, others) => others

@[simp]
theorem head_cons (value : α) (others : Tuple types) : (cons value others).head = value := by
  cases types <;> rfl

@[simp]
theorem tail_cons (value : α) (others : Tuple types) : (cons value others).tail = others := by
  cases types <;> rfl

@[simp]
theorem cons_head_tail (tuple : Tuple (α :: types)) : cons tuple.head tuple.tail = tuple := by
  cases types <;> rfl

end Tuple

end InvertibleGrammar
