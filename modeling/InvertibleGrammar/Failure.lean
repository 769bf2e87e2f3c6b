/-!
# Failures

A failure is the cause for which a grammar refuses an input or a value. Causes
met while reading record how many bytes were left, so the same failure keeps its
meaning inside a longer input: `Failure.offset?` turns it into a position once
the length of the whole input is known.
-/

namespace InvertibleGrammar

/-- The cause for which a grammar refuses an input or a value. -/
inductive Failure where
  /-- The input ended within what was expected. -/
  | endOfInput (expected : String)
  /-- Something else stood where `remaining` bytes were left. -/
  | unexpected (expected : String) (remaining : Nat)
  /-- A bound was missed by what was read from where `remaining` bytes were left. -/
  | predicate (expected : String) (remaining : Nat)
  /-- The value is none that reading could have produced. -/
  | unrepresentable (reason : String)
  /-- A conversion refused the value. -/
  | conversion (reason : String)
  /-- Every alternative of a choice failed, here in declared order. -/
  | exhausted (failures : List Failure)
  /-- A value was read and `remaining` bytes were left over. -/
  | extraData (remaining : Nat)
  deriving Repr

namespace Failure

/-- The text shown for a failure. -/
def message : Failure → String
  | endOfInput expected => "unexpected end of input: expected " ++ expected
  | unexpected expected remaining =>
      "unexpected input: expected " ++ expected ++ " (" ++ toString remaining ++ " remaining)"
  | predicate expected remaining =>
      "predicate violated: " ++ expected ++ " (" ++ toString remaining ++ " remaining)"
  | unrepresentable reason => "unrepresentable value: " ++ reason
  | conversion reason => "conversion rejected: " ++ reason
  | exhausted failures => "all " ++ toString failures.length ++ " alternatives failed"
  | extraData remaining => "extra data found: " ++ toString remaining ++ " units"

/-- The position of the last `remaining` bytes in an input of `length` bytes, if it has so many. -/
def position? (length remaining : Nat) : Option Nat :=
  if remaining ≤ length then some (length - remaining) else none

mutual
/-- The position of a failure in an input of `length` bytes. An exhausted choice
stands at the furthest position that one of its failures reached. -/
def offset? (length : Nat) : Failure → Option Nat
  | endOfInput _ => some length
  | unexpected _ remaining => position? length remaining
  | predicate _ remaining => position? length remaining
  | extraData remaining => position? length remaining
  | exhausted failures => furthest? length failures
  | unrepresentable _ => none
  | conversion _ => none

/-- The greatest of the positions that some of the failures have. -/
def furthest? (length : Nat) : List Failure → Option Nat
  | [] => none
  | failure :: others => (failure.offset? length).merge max (furthest? length others)
end

end Failure

end InvertibleGrammar
