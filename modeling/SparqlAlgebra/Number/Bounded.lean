/-!
# Bounded integers

Integers of a fixed number of bits. Results outside the range are failures, not
other numbers.
-/

namespace SparqlAlgebra

/-- The first number that is too large for a signed integer of `bits` bits. -/
def signedBound (bits : Nat) : Int := Nat.pow 2 (bits - 1)

/-- Whether an integer fits into `bits` bits, one of them for the sign. -/
def fitsSigned (bits : Nat) (n : Int) : Bool :=
  -signedBound bits ≤ n && n < signedBound bits

/-- The integer if it fits into `bits` bits. -/
def checkSigned (bits : Nat) (n : Int) : Option Int :=
  if fitsSigned bits n then some n else none

/-- The number that a list of decimal digits denotes. -/
def digitsValue (digits : List Char) : Nat :=
  digits.foldl (fun acc c => acc * 10 + (c.toNat - '0'.toNat)) 0

/-- A sign, if there is one, and what follows it. -/
def splitSign (cs : List Char) : Bool × List Char :=
  match cs with
  | '-' :: rest => (true, rest)
  | '+' :: rest => (false, rest)
  | rest => (false, rest)

/-- Reads an optional sign and decimal digits as a 64-bit integer. -/
def parseInteger? (text : String) : Option Int :=
  let (negative, digits) := splitSign text.toList
  if digits.isEmpty || !digits.all Char.isDigit then none
  else
    let n : Int := digitsValue digits
    checkSigned 64 (if negative then -n else n)

/-- The largest number that counts, offsets and limits can be. -/
def maxCount : Nat := Nat.pow 2 64 - 1

/-- The sum of two counts, at most the largest one. -/
def addCounts (m n : Nat) : Nat := min (m + n) maxCount

end SparqlAlgebra
