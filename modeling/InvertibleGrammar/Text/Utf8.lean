import InvertibleGrammar.Run
import InvertibleGrammar.Failure

/-!
# UTF-8

The bytes of a text are the UTF-8 forms of its characters, one after the other.
A byte string is a text when it is such a sequence, and then of one text only.
-/

namespace InvertibleGrammar.Utf8

/-- The bytes of a text. -/
def encode (text : Run Char) : Run UInt8 := text.flatMap String.utf8EncodeChar

/-- The text that a byte string is the UTF-8 form of, if there is one. -/
def decode? (bytes : Run UInt8) : Option (Run Char) :=
  (String.fromUTF8? ⟨bytes.toArray⟩).map String.toList

/-- As `decode?`, with the failure for a byte string that is no text. -/
def decode (bytes : Run UInt8) : Except Failure (Run Char) :=
  match decode? bytes with
  | some text => .ok text
  | none => .error (.conversion "invalid utf-8")

/-- Texts are ordered as their bytes are. -/
def compare (a b : Run Char) : Ordering := Ord.compare (encode a) (encode b)

end InvertibleGrammar.Utf8
