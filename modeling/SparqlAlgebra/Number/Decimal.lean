import SparqlAlgebra.Number.Bounded

/-!
# Decimal numbers

Decimal numbers with eighteen places after the point, counted in units of the
last place. The units fit into 128 bits; results that do not are failures.
-/

namespace SparqlAlgebra

/-- A decimal number as a count of units of 10⁻¹⁸. -/
structure Decimal where
  units : Int
deriving DecidableEq, Inhabited

namespace Decimal

/-- The number of places after the point. -/
def places : Nat := 18

/-- The units of the number one. -/
def one : Int := Nat.pow 10 places

/-- The decimal of a number of units, if these fit into 128 bits. -/
def ofUnits? (units : Int) : Option Decimal :=
  (checkSigned 128 units).map Decimal.mk

def ofInt? (n : Int) : Option Decimal := ofUnits? (n * one)

/-! ## Reading and printing -/

/-- The digits without zeros at their end. -/
def dropTrailingZeros (digits : List Char) : List Char :=
  (digits.reverse.dropWhile (· = '0')).reverse

/-- The decimal with the given digits before and after the point. -/
def ofDigits? (negative : Bool) (whole fraction : List Char) :
    Option Decimal :=
  let fraction := dropTrailingZeros fraction
  if fraction.length > places then none
  else
    let n : Int := digitsValue (whole ++ fraction)
    let scaled := n * Nat.pow 10 (places - fraction.length)
    ofUnits? (if negative then -scaled else scaled)

/-- Reads an optional sign, digits and optionally a point with more digits. One
digit at least is needed. -/
def parse? (text : String) : Option Decimal :=
  let (negative, body) := splitSign text.toList
  let whole := body.takeWhile Char.isDigit
  match body.dropWhile Char.isDigit with
  | [] => if whole.isEmpty then none else ofDigits? negative whole []
  | '.' :: fraction =>
    if !fraction.all Char.isDigit then none
    else if whole.isEmpty && fraction.isEmpty then none
    else ofDigits? negative whole fraction
  | _ => none

/-- The digits of a number, filled with zeros on the left. -/
def paddedDigits (width n : Nat) : List Char :=
  let digits := Nat.toDigits 10 n
  List.replicate (width - digits.length) '0' ++ digits

/-- The shortest form: no zeros at the end of the fraction, no point without a
fraction, one digit at least before the point. -/
def render (d : Decimal) : String :=
  let n := d.units.natAbs
  let whole := Nat.toDigits 10 (n / one.natAbs)
  let fraction := dropTrailingZeros (paddedDigits places (n % one.natAbs))
  let sign := if d.units < 0 then ['-'] else []
  let point := if fraction.isEmpty then [] else '.' :: fraction
  String.ofList (sign ++ whole ++ point)

/-! ## Arithmetic -/

def add? (a b : Decimal) : Option Decimal := ofUnits? (a.units + b.units)

def sub? (a b : Decimal) : Option Decimal := ofUnits? (a.units - b.units)

def neg? (a : Decimal) : Option Decimal := ofUnits? (-a.units)

def abs? (a : Decimal) : Option Decimal := ofUnits? a.units.natAbs

/-- Divides by `factor` as long as that leaves no remainder, at most `count`
times, and returns how many divisions are left. -/
def cancel (factor : Int) : Nat → Int → Nat × Int
  | 0, n => (0, n)
  | count + 1, n =>
    if n.tmod factor = 0 then cancel factor count (n.tdiv factor)
    else (count + 1, n)

/-- Cancels the scale of a product in its factors: `none` if the product has
more places than a decimal can have. -/
def cancelScale (factor : Int) (a b : Int) : Option (Int × Int) :=
  let (left, a) := cancel factor places a
  let (left, b) := cancel factor left b
  if left = 0 then some (a, b) else none

/-- The exact product. A product with more than eighteen places fails. -/
def mul? (a b : Decimal) : Option Decimal :=
  if a.units = 0 || b.units = 0 then some ⟨0⟩
  else do
    let (m, n) ← cancelScale 2 a.units b.units
    let (m, n) ← cancelScale 5 m n
    ofUnits? (m * n)

/-- Multiplies by ten as long as the result fits into 128 bits, at most `count`
times, and returns how many multiplications were done. -/
def scaleUp : Nat → Int → Nat × Int
  | 0, n => (0, n)
  | count + 1, n =>
    if fitsSigned 128 (n * 10) then
      let (done, m) := scaleUp count (n * 10)
      (done + 1, m)
    else (0, n)

/-- The quotient, cut off behind its last place. It fails for a divisor of zero,
if the places of the divisor leave too little room, and if the quotient of the
scaled numbers does not fit. -/
def div? (a b : Decimal) : Option Decimal :=
  if b.units = 0 then none
  else
    let (up, m) := if a.units = 0 then (0, 0) else scaleUp 39 a.units
    let (left, n) := cancel 10 39 b.units
    let shift := up + (39 - left)
    if shift < places then none
    else do
      let quotient ← checkSigned 128 (m.tdiv n)
      let scale ← checkSigned 128 (Nat.pow 10 (shift - places))
      ofUnits? (quotient.tdiv scale)

/-! ## Rounding -/

/-- The greatest whole number that is not greater. -/
def floor? (d : Decimal) : Option Decimal :=
  ofUnits? (Int.fdiv d.units one * one)

/-- The nearest whole number; a half goes up, whatever the sign. It is the floor
of the number increased by a half. -/
def round? (d : Decimal) : Option Decimal :=
  ofUnits? (Int.fdiv (d.units + one / 2) one * one)

/-- The least whole number that is not smaller. -/
def ceil? (d : Decimal) : Option Decimal :=
  ofUnits? (-(Int.fdiv (-d.units) one) * one)

/-- The whole number before the point. -/
def truncate (d : Decimal) : Int := d.units.tdiv one

end Decimal

end SparqlAlgebra
