import SparqlAlgebra.Term
import SparqlAlgebra.Number.Floating

/-!
# Numbers

The numeric values of literals and arithmetic on them. Two operands are first
brought to a common type: integer, decimal, single or double precision.
Integers and decimals fail on overflow, floating-point numbers do not.
-/

namespace SparqlAlgebra

/-- A numeric value. -/
inductive Number where
  | integer (n : Int)
  | decimal (d : Decimal)
  | float (x : Float32)
  | double (x : Float)
deriving Inhabited

namespace Number

/-! ## Conversions -/

private def doubleOfBits (bits : Nat) : Float := Float.ofBits bits.toUInt64

private def singleOfBits (bits : Nat) : Float32 := Float32.ofBits bits.toUInt32

/-- The decimal of a 64-bit integer. -/
def decimalOfInt (n : Int) : Decimal := ⟨n * Decimal.one⟩

/-- Removes factors of ten, at most eighteen; returns how many are left. -/
private def reduceUnits (units : Int) : Nat × Int :=
  Decimal.cancel 10 Decimal.places units

/-- The nearest double of the units without factors of ten, divided by the
power of ten that remains. -/
def doubleOfDecimal (d : Decimal) : Float :=
  let (left, n) := reduceUnits d.units
  doubleOfBits (FloatFormat.double.ofInt n) /
    doubleOfBits (FloatFormat.double.ofInt (Nat.pow 10 left))

/-- The decimal of a double, cut off behind its last place. It fails outside
the range of decimals. -/
def decimalOfDouble? (x : Float) : Option Decimal :=
  let shifted := x * doubleOfBits (FloatFormat.double.ofInt Decimal.one)
  let bound := doubleOfBits (FloatFormat.double.ofInt (signedBound 128))
  if -bound ≤ shifted && shifted ≤ bound then
    let n := FloatFormat.double.truncate shifted.toBits.toNat
    some ⟨min n (signedBound 128 - 1)⟩
  else none

def toDouble : Number → Float
  | integer n => doubleOfBits (FloatFormat.double.ofInt n)
  | decimal d => doubleOfDecimal d
  | float x => x.toFloat
  | double x => x

def toSingle : Number → Float32
  | integer n => singleOfBits (FloatFormat.single.ofInt n)
  | decimal d => (doubleOfDecimal d).toFloat32
  | float x => x
  | double x => x.toFloat32

def toDecimal? : Number → Option Decimal
  | integer n => some (decimalOfInt n)
  | decimal d => some d
  | float x => decimalOfDouble? x.toFloat
  | double x => decimalOfDouble? x

/-- The whole number before the point if it fits into 64 bits. -/
def toInteger? : Number → Option Int
  | integer n => some n
  | x => do checkSigned 64 (← x.toDecimal?).truncate

/-! ## Arithmetic -/

/-- Two operands of one type. -/
inductive Pair where
  | integers (a b : Int)
  | decimals (a b : Decimal)
  | floats (a b : Float32)
  | doubles (a b : Float)

/-- Brings two operands to the smallest type that covers both. -/
def promote (a b : Number) : Pair :=
  match a, b with
  | integer m, integer n => .integers m n
  | integer m, decimal e => .decimals (decimalOfInt m) e
  | decimal d, integer n => .decimals d (decimalOfInt n)
  | decimal d, decimal e => .decimals d e
  | double x, b => .doubles x b.toDouble
  | a, double y => .doubles a.toDouble y
  | a, b => .floats a.toSingle b.toSingle

private def checkInteger (n : Int) : Option Number :=
  (checkSigned 64 n).map integer

def add? (a b : Number) : Option Number :=
  match promote a b with
  | .integers m n => checkInteger (m + n)
  | .decimals d e => (d.add? e).map decimal
  | .floats x y => some (float (x + y))
  | .doubles x y => some (double (x + y))

def sub? (a b : Number) : Option Number :=
  match promote a b with
  | .integers m n => checkInteger (m - n)
  | .decimals d e => (d.sub? e).map decimal
  | .floats x y => some (float (x - y))
  | .doubles x y => some (double (x - y))

def mul? (a b : Number) : Option Number :=
  match promote a b with
  | .integers m n => checkInteger (m * n)
  | .decimals d e => (d.mul? e).map decimal
  | .floats x y => some (float (x * y))
  | .doubles x y => some (double (x * y))

/-- The quotient. Integers are divided as decimals. -/
def div? (a b : Number) : Option Number :=
  match promote a b with
  | .integers m n => ((decimalOfInt m).div? (decimalOfInt n)).map decimal
  | .decimals d e => (d.div? e).map decimal
  | .floats x y => some (float (x / y))
  | .doubles x y => some (double (x / y))

def neg? : Number → Option Number
  | integer n => checkInteger (-n)
  | decimal d => d.neg?.map decimal
  | float x => some (float (-x))
  | double x => some (double (-x))

def abs? : Number → Option Number
  | integer n => checkInteger n.natAbs
  | decimal d => d.abs?.map decimal
  | float x => some (float x.abs)
  | double x => some (double x.abs)

/-- The nearest whole number. A half goes away from zero, but a fraction of
exactly minus one half goes up. -/
def round? : Number → Option Number
  | integer n => some (integer n)
  | decimal d => d.round?.map decimal
  | float x =>
    some (float (if x.ceil - x == 0.5 && x < 0 then x.ceil else x.round))
  | double x =>
    some (double (if x.ceil - x == 0.5 && x < 0 then x.ceil else x.round))

def ceil? : Number → Option Number
  | integer n => some (integer n)
  | decimal d => d.ceil?.map decimal
  | float x => some (float x.ceil)
  | double x => some (double x.ceil)

def floor? : Number → Option Number
  | integer n => some (integer n)
  | decimal d => d.floor?.map decimal
  | float x => some (float x.floor)
  | double x => some (double x.floor)

/-! ## Comparison -/

/-- The order of two doubles; not-a-number is comparable to nothing. -/
private def compareDoubles (x y : Float) : Option Ordering :=
  if x < y then some .lt
  else if x == y then some .eq
  else if y < x then some .gt
  else none

private def compareSingles (x y : Float32) : Option Ordering :=
  if x < y then some .lt
  else if x == y then some .eq
  else if y < x then some .gt
  else none

/-- The order by value. -/
def compare? (a b : Number) : Option Ordering :=
  match promote a b with
  | .integers m n => some (compare m n)
  | .decimals d e => some (compare d.units e.units)
  | .floats x y => compareSingles x y
  | .doubles x y => compareDoubles x y

/-- Whether a number counts as true: it is neither zero nor not-a-number. -/
def isTruthy : Number → Bool
  | integer n => n ≠ 0
  | decimal d => d.units ≠ 0
  | float x => x != 0 && !x.isNaN
  | double x => x != 0 && !x.isNaN

/-! ## Literals -/

/-- The datatypes of integers. -/
def integerTypes : List Iri :=
  ["integer", "byte", "short", "int", "long", "unsignedByte", "unsignedShort",
    "unsignedInt", "unsignedLong", "positiveInteger", "negativeInteger",
    "nonPositiveInteger", "nonNegativeInteger"].map Datatype.xsd

/-- Whether a datatype is one of numbers. -/
def isNumericType (datatype : Iri) : Bool :=
  datatype = Datatype.decimal || datatype = Datatype.float ||
    datatype = Datatype.double || integerTypes.contains datatype

def parseDouble? (text : String) : Option Float :=
  (FloatFormat.double.parse? text).map doubleOfBits

def parseSingle? (text : String) : Option Float32 :=
  (FloatFormat.single.parse? text).map singleOfBits

/-- The number that a literal denotes. -/
def ofLiteral? (l : Literal) : Option Number :=
  if l.datatype = Datatype.decimal then (Decimal.parse? l.lexical).map decimal
  else if l.datatype = Datatype.float then (parseSingle? l.lexical).map float
  else if l.datatype = Datatype.double then (parseDouble? l.lexical).map double
  else if integerTypes.contains l.datatype then
    (parseInteger? l.lexical).map integer
  else none

/-- The number that a term denotes. -/
def ofTerm? : Term → Option Number
  | .literal l => ofLiteral? l
  | _ => none

def renderDouble (x : Float) : String :=
  FloatFormat.double.render x.toBits.toNat

def renderSingle (x : Float32) : String :=
  FloatFormat.single.render x.toBits.toNat

/-- The literal of a number. -/
def toLiteral : Number → Literal
  | integer n => .ofInt n
  | decimal d => .typed d.render Datatype.decimal
  | float x => .typed (renderSingle x) Datatype.float
  | double x => .typed (renderDouble x) Datatype.double

def toTerm (x : Number) : Term := .literal x.toLiteral

end Number

end SparqlAlgebra
