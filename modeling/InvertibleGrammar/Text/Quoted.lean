/-!
# Quoted texts

A text is shown between double quotes. A quote, a backslash and the control
characters are escaped, so the shown form stays on one line.
-/

namespace InvertibleGrammar.Quoted

/-- A character by its code, in lower-case hexadecimal digits. -/
def escapeCode (c : Char) : List Char :=
  ['\\', 'u', '\x7b'] ++ Nat.toDigits 16 c.toNat ++ ['\x7d']

/-- Whether a character is an ASCII control character. -/
def isControl (c : Char) : Bool := c.toNat < 32 || c.toNat == 127

/-- The form of a character between quotes. -/
def escape (c : Char) : List Char :=
  match c with
  | '"' => ['\\', '"']
  | '\\' => ['\\', '\\']
  | '\n' => ['\\', 'n']
  | '\r' => ['\\', 'r']
  | '\t' => ['\\', 't']
  | '\x00' => ['\\', '0']
  | c => if isControl c then escapeCode c else [c]

/-- A text between quotes. -/
def encode (text : List Char) : List Char := '"' :: text.flatMap escape ++ ['"']

end InvertibleGrammar.Quoted
