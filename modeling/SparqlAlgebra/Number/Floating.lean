import SparqlAlgebra.Number.Decimal

/-!
# Floating-point text

Reading and printing of binary floating-point numbers in exact arithmetic. A
number is a mantissa times a power of two; its text is the shortest decimal
that reads back as the same number, written without an exponent.
-/

namespace SparqlAlgebra

/-- A binary interchange format: the bits behind the leading bit of a mantissa
and the bits of the exponent. -/
structure FloatFormat where
  fractionBits : Nat
  exponentBits : Nat

namespace FloatFormat

/-- The format of `xsd:float`. -/
def single : FloatFormat := ⟨23, 8⟩

/-- The format of `xsd:double`. -/
def double : FloatFormat := ⟨52, 11⟩

/-- The exponent of two of the smallest numbers. -/
def minExponent (f : FloatFormat) : Int :=
  2 - (Nat.pow 2 (f.exponentBits - 1) : Int) - f.fractionBits

/-- The bits of positive infinity. -/
def infinityBits (f : FloatFormat) : Nat :=
  (Nat.pow 2 f.exponentBits - 1) * Nat.pow 2 f.fractionBits

/-- The bit of the sign. -/
def signBit (f : FloatFormat) : Nat :=
  Nat.pow 2 (f.fractionBits + f.exponentBits)

/-- The whole number nearest to a quotient, an even one if two are. -/
def roundQuotient (num den : Nat) : Nat :=
  let q := num / den
  let r := num % den
  if 2 * r < den then q
  else if den < 2 * r then q + 1
  else if q % 2 = 0 then q else q + 1

/-- The exponent of two below a positive quotient:
`2 ^ e ≤ num / den < 2 ^ (e + 1)`. -/
def binaryExponent (num den : Nat) : Int :=
  let e : Int := (Nat.log2 num : Int) - Nat.log2 den
  let reached :=
    if 0 ≤ e then den * Nat.pow 2 e.toNat ≤ num
    else den ≤ num * Nat.pow 2 (-e).toNat
  if reached then e else e - 1

/-- The bits of the number nearest to `num / den`, infinity if it is too
large. -/
def ofQuotient (f : FloatFormat) (num den : Nat) : Nat :=
  if num = 0 then 0
  else
    let q := max (binaryExponent num den - f.fractionBits) f.minExponent
    let m :=
      if 0 ≤ q then roundQuotient num (den * Nat.pow 2 q.toNat)
      else roundQuotient (num * Nat.pow 2 (-q).toNat) den
    let bits := (q - f.minExponent).toNat * Nat.pow 2 f.fractionBits + m
    min bits f.infinityBits

/-- The bits of the number nearest to an integer. -/
def ofInt (f : FloatFormat) (n : Int) : Nat :=
  f.ofQuotient n.natAbs 1 + (if n < 0 then f.signBit else 0)

/-- A mantissa and the exponent of two it is multiplied with. -/
def decode (f : FloatFormat) (bits : Nat) : Nat × Int :=
  let e := bits / Nat.pow 2 f.fractionBits % Nat.pow 2 f.exponentBits
  let fraction := bits % Nat.pow 2 f.fractionBits
  if e = 0 then (fraction, f.minExponent)
  else (Nat.pow 2 f.fractionBits + fraction, f.minExponent + e - 1)

/-! ## Reading -/

/-- Exponents beyond this leave the range of every format, whatever the
digits before them. -/
def exponentBound : Nat := 1000000

/-- The bits of a decimal: its digits, the places after the point, and an
exponent of ten. -/
def ofDecimal (f : FloatFormat) (digits : List Char) (places : Nat)
    (exponent : Int) : Nat :=
  let digits := digits.dropWhile (· = '0')
  let e := exponent - places
  if digits.isEmpty then 0
  else if e + digits.length > 400 then f.infinityBits
  else if e + digits.length < -400 then 0
  else
    let n := digitsValue digits
    if 0 ≤ e then f.ofQuotient (n * Nat.pow 10 e.toNat) 1
    else f.ofQuotient n (Nat.pow 10 (-e).toNat)

/-- The digits and the sign of an exponent, cut off at `exponentBound`. -/
private def parseExponent? (cs : List Char) : Option Int :=
  let (negative, digits) := splitSign cs
  if digits.isEmpty || !digits.all Char.isDigit then none
  else
    let digits := digits.dropWhile (· = '0')
    let n : Int :=
      if digits.length > 7 then exponentBound else digitsValue digits
    some (if negative then -n else n)

/-- Reads the bits of a number without a sign: decimal digits with an optional
point and an optional exponent, or a word for infinity or not-a-number. -/
private def parseMagnitude? (f : FloatFormat) (cs : List Char) : Option Nat :=
  let word := String.ofList (cs.map Char.toLower)
  if word = "inf" || word = "infinity" then some f.infinityBits
  else if word = "nan" then
    some (f.infinityBits + Nat.pow 2 (f.fractionBits - 1))
  else
    let whole := cs.takeWhile Char.isDigit
    let rest := cs.dropWhile Char.isDigit
    let (fraction, rest) := match rest with
      | '.' :: more => (more.takeWhile Char.isDigit, more.dropWhile Char.isDigit)
      | rest => ([], rest)
    if whole.isEmpty && fraction.isEmpty then none
    else
      let digits := whole ++ fraction
      match rest with
      | [] => some (f.ofDecimal digits fraction.length 0)
      | c :: more =>
        if c = 'e' || c = 'E' then
          (parseExponent? more).map (f.ofDecimal digits fraction.length)
        else none

/-- Reads the bits of a number with an optional sign. -/
def parse? (f : FloatFormat) (text : String) : Option Nat :=
  let (negative, cs) := splitSign text.toList
  (parseMagnitude? f cs).map fun bits =>
    bits + (if negative then f.signBit else 0)

/-! ## Printing -/

/-- The exponent of ten below a positive quotient, found near `guess`:
`10 ^ e ≤ num / den < 10 ^ (e + 1)`. -/
def decimalExponent (num den : Nat) : Int :=
  let reached (e : Int) : Bool :=
    if 0 ≤ e then den * Nat.pow 10 e.toNat ≤ num
    else den ≤ num * Nat.pow 10 (-e).toNat
  let guess := Int.fdiv (binaryExponent num den * 30103) 100000
  if reached (guess + 1) then guess + 1
  else if reached guess then guess
  else guess - 1

/-- The bounds between which decimals read back as `m * 2 ^ q`, as numerators
over one denominator, with the value itself: low, value, high, denominator. -/
def readBackBounds (f : FloatFormat) (m : Nat) (q : Int) :
    Nat × Nat × Nat × Nat :=
  let narrow := m = Nat.pow 2 f.fractionBits && f.minExponent < q
  let low := if narrow then 4 * m - 1 else 4 * m - 2
  let (up, den) :=
    if 0 ≤ q then (Nat.pow 2 q.toNat, 4) else (1, 4 * Nat.pow 2 (-q).toNat)
  (low * up, 4 * m * up, (4 * m + 2) * up, den)

/-- The shortest digits that read back, searched from `count` digits on: the
digits as a number and the exponent of ten they are multiplied with. Of two
neighbours that both read back the nearer one is taken, and the larger one if
neither is nearer. -/
def shortestFrom (low value high den : Nat) (inclusive : Bool) (top : Int) :
    Nat → Nat → Nat × Int
  | 0, _ => (0, 0)
  | fuel + 1, count =>
    let e := top - (count - 1 : Nat)
    let (up, down) :=
      if 0 ≤ e then (1, Nat.pow 10 e.toNat) else (Nat.pow 10 (-e).toNat, 1)
    let step := den * down
    let below := value * up / step
    let fits (n : Nat) : Bool :=
      if inclusive then low * up ≤ n * step && n * step ≤ high * up
      else low * up < n * step && n * step < high * up
    let lowFits := fits below
    let highFits := fits (below + 1)
    let rest := value * up - below * step
    if lowFits && highFits then
      (if 2 * rest < step then below else below + 1, e)
    else if lowFits then (below, e)
    else if highFits then (below + 1, e)
    else shortestFrom low value high den inclusive top fuel (count + 1)

/-- The shortest digits of a positive number, and their exponent of ten. -/
def shortest (f : FloatFormat) (m : Nat) (q : Int) : Nat × Int :=
  let (low, value, high, den) := f.readBackBounds m q
  shortestFrom low value high den (m % 2 = 0) (decimalExponent value den) 20 1

/-- Digits times a power of ten, without an exponent and without zeros at the
end of the fraction. -/
def positional (digits : Nat) (e : Int) : List Char :=
  let ds := Nat.toDigits 10 digits
  if 0 ≤ e then ds ++ List.replicate e.toNat '0'
  else
    let places := (-e).toNat
    let padded := Decimal.paddedDigits (places + 1) digits
    let whole := padded.take (padded.length - places)
    let fraction :=
      Decimal.dropTrailingZeros (padded.drop (padded.length - places))
    if fraction.isEmpty then whole else whole ++ '.' :: fraction

/-- The text of a number given by its bits. -/
def render (f : FloatFormat) (bits : Nat) : String :=
  let negative := bits / f.signBit % 2 = 1
  let magnitude := bits % f.signBit
  let sign := if negative then "-" else ""
  if f.infinityBits < magnitude then "NaN"
  else if magnitude = f.infinityBits then sign ++ "INF"
  else if magnitude = 0 then sign ++ "0"
  else
    let (m, q) := f.decode magnitude
    let (digits, e) := f.shortest m q
    sign ++ String.ofList (positional digits e)

/-- The whole number before the point of a finite number. -/
def truncate (f : FloatFormat) (bits : Nat) : Int :=
  let (m, q) := f.decode (bits % f.signBit)
  let n : Int :=
    if 0 ≤ q then m * Nat.pow 2 q.toNat else m / Nat.pow 2 (-q).toNat
  if bits / f.signBit % 2 = 1 then -n else n

end FloatFormat

end SparqlAlgebra
