import InvertibleGrammar.Failure
import InvertibleGrammar.IntType
import InvertibleGrammar.Run

/-!
# Numerals

Each integer has one numeral: its decimal digits without leading zeros, after a
minus sign if it is negative. Reading accepts numerals only. It goes digit by digit
for as many digits as there are, so a number too large for its type is refused as a
whole.
-/

namespace InvertibleGrammar.Numeral

variable {σ : Type} [Symbol σ]

/-- The numeral of an integer. -/
def digits (n : Int) : List Char :=
  if n < 0 then '-' :: Nat.toDigits 10 n.natAbs else Nat.toDigits 10 n.natAbs

/-- The numeral of an integer, in symbols. -/
def spelling (n : Int) : Run σ := (digits n).flatMap Symbol.spell

/-- Whether an input starts with a minus sign that the type can use, and what follows it. -/
def sign (t : IntType) (input : Run σ) : Bool × Run σ :=
  match input with
  | [] => (false, [])
  | symbol :: rest =>
      if t.signed && Symbol.toChar symbol = '-' then (true, rest) else (false, symbol :: rest)

/-- The digit that a symbol stands for. -/
def digit? (symbol : σ) : Option Nat :=
  if (Symbol.toChar symbol).isDigit then some ((Symbol.toChar symbol).toNat - '0'.toNat) else none

/-- Puts a digit behind a number, moving away from zero. Neither the number times ten nor
what comes out may lie beyond the bounds of the type. -/
def push? (t : IntType) (negative : Bool) (n : t.Value) (digit : Nat) : Option t.Value :=
  (t.ofInt? (10 * n.val)).bind fun shifted =>
    t.ofInt? (if negative then shifted.val - digit else shifted.val + digit)

/-- Puts all digits that an input starts with behind a number, one after the other, and
gives what follows them. -/
def pushAll? (t : IntType) (negative : Bool) : t.Value → Run σ → Option (t.Value × Run σ)
  | n, [] => some (n, [])
  | n, symbol :: rest =>
      match digit? symbol with
      | none => some (n, symbol :: rest)
      | some digit => (push? t negative n digit).bind fun longer =>
          pushAll? t negative longer rest

/-- Reads the digits after a sign, the first of which is given apart. A zero in front is the
whole number, and has no sign. -/
def readDigits? (t : IntType) (negative : Bool) (symbol : σ) (rest : Run σ) :
    Option (t.Value × Run σ) :=
  (digit? symbol).bind fun digit =>
    (push? t negative t.zero digit).bind fun first =>
      if digit = 0 then if negative then none else some (first, rest)
      else pushAll? t negative first rest

/-- Reads the numeral that an input starts with and gives what follows it. A sign
needs a digit other than zero after it. -/
def read (t : IntType) (input : Run σ) : Except Failure (t.Value × Run σ) :=
  let (negative, body) := sign t input
  match body with
  | [] => .error (.endOfInput "integer")
  | symbol :: rest =>
      match readDigits? t negative symbol rest with
      | some found => .ok found
      | none => .error (.unexpected "integer" input.units)

end InvertibleGrammar.Numeral
