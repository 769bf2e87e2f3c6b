import InvertibleGrammar.Text.Utf8

/-!
# Conversions

A conversion leads from the value that a grammar reads to a richer one, and back
before writing. Either direction may refuse a value.
-/

namespace InvertibleGrammar

/-- Two mappings that are meant to undo each other. -/
structure Conversion (α β : Type) where
  /-- Converts a value that was read. -/
  apply : α → Except Failure β
  /-- Converts a value back into one that can be written. -/
  unapply : β → Except Failure α

namespace Conversion

variable {α β : Type}

/-- A conversion that refuses nothing. -/
def total (apply : α → β) (unapply : β → α) : Conversion α β where
  apply a := .ok (apply a)
  unapply b := .ok (unapply b)

/-- A run of characters as a string. -/
def string : Conversion (Run Char) String := total String.ofList String.toList

/-- A run of bytes as the string it is the UTF-8 form of; other runs are refused. -/
def utf8 : Conversion (Run UInt8) String where
  apply bytes := (Utf8.decode bytes).map String.ofList
  unapply text := .ok (Utf8.encode text.toList)

end Conversion

end InvertibleGrammar
