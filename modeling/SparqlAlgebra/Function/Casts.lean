import SparqlAlgebra.Function.Strings

/-!
# Casts

Conversions between the datatypes of XML Schema. The source is a string, a
boolean, a number or a date with time; all other terms are refused, except that
IRIs and literals of every datatype can be cast to a string.
-/

namespace SparqlAlgebra

namespace Cast

/-- The value that a cast starts from. -/
inductive Source where
  | text (s : String)
  | boolean (b : Bool)
  | number (x : Number)
  | dateTime (t : DateTime)

def Source.ofTerm? : Term → Option Source
  | .literal l =>
    if l.datatype = Datatype.string then some (.text l.lexical)
    else if l.datatype = Datatype.boolean then
      (parseBoolean? l.lexical).map .boolean
    else if l.datatype = Datatype.dateTime then
      (DateTime.parse? l.lexical).map .dateTime
    else (Number.ofLiteral? l).map .number
  | _ => none

def string? : Term → Option Term
  | .iri i => some (simpleTerm i.value)
  | .literal l => some (simpleTerm l.lexical)
  | .blank _ => none

def boolean? (t : Term) : Option Term := do
  match ← Source.ofTerm? t with
  | .text s => return boolTerm (← parseBoolean? s)
  | .boolean b => return boolTerm b
  | .number x => return boolTerm x.isTruthy
  | .dateTime _ => none

/-- A cast to a numeric datatype: a string is read, a boolean counts as one or
zero, and a number is converted. -/
def toNumber? (read : String → Option Number)
    (convert : Number → Option Number) (t : Term) : Option Term := do
  match ← Source.ofTerm? t with
  | .text s => return (← read s).toTerm
  | .boolean b => return (← convert (.integer (if b then 1 else 0))).toTerm
  | .number x => return (← convert x).toTerm
  | .dateTime _ => none

def integer? : Term → Option Term :=
  toNumber? (fun s => (parseInteger? s).map .integer)
    fun x => x.toInteger?.map .integer

def decimal? : Term → Option Term :=
  toNumber? (fun s => (Decimal.parse? s).map .decimal)
    fun x => x.toDecimal?.map .decimal

def float? : Term → Option Term :=
  toNumber? (fun s => (Number.parseSingle? s).map .float)
    fun x => some (.float x.toSingle)

def double? : Term → Option Term :=
  toNumber? (fun s => (Number.parseDouble? s).map .double)
    fun x => some (.double x.toDouble)

def dateTime? (t : Term) : Option Term := do
  let value ← match ← Source.ofTerm? t with
    | .text s => DateTime.parse? s
    | .dateTime value => some value
    | _ => none
  return .literal (.typed value.render Datatype.dateTime)

end Cast

end SparqlAlgebra
