import SparqlAlgebra.Function.Casts
import SparqlAlgebra.Function.Name
import SparqlAlgebra.Function.Terms

/-!
# Function registries

What each builtin function computes, and registries that find the function of
a name. A function fails with `none`.
-/

namespace SparqlAlgebra

/-- A function on evaluated arguments. -/
abbrev ScalarFunction := CallContext → List Term → Option Term

namespace ScalarFunction

/-- A function of no argument. -/
def nullary (f : CallContext → Term) : ScalarFunction
  | context, [] => some (f context)
  | _, _ => none

/-- A function of one argument. -/
def unary (f : Term → Option Term) : ScalarFunction
  | _, [a] => f a
  | _, _ => none

/-- A function of two arguments. -/
def binary (f : Term → Term → Option Term) : ScalarFunction
  | _, [a, b] => f a b
  | _, _ => none

/-- A test of one argument. -/
def test (f : Term → Bool) : ScalarFunction := unary fun t => some (boolTerm (f t))

/-- A function of one number. -/
def numeric (f : Number → Option Number) : ScalarFunction :=
  unary fun t => do return (← f (← Number.ofTerm? t)).toTerm

end ScalarFunction

open ScalarFunction in
/-- The builtin function of a name. -/
def Builtin.apply : Builtin → ScalarFunction
  | .str => unary TermFunction.str?
  | .lang => unary TermFunction.lang?
  | .langMatches => binary TermFunction.langMatches?
  | .datatype => unary TermFunction.datatype?
  | .iri => unary TermFunction.iri?
  | .bnode => fun context args =>
    match args with
    | [] => some (TermFunction.freshBlank context)
    | [label] => TermFunction.labelledBlank? context label
    | _ => none
  | .strDt => binary TermFunction.strDt?
  | .strLang => binary TermFunction.strLang?
  | .uuid => nullary TermFunction.uuid
  | .strUuid => nullary TermFunction.strUuid
  | .isIri => test TermFunction.isIri
  | .isBlank => test TermFunction.isBlank
  | .isLiteral => test TermFunction.isLiteral
  | .isNumeric => test TermFunction.isNumeric
  | .strLen => unary StringFunction.strLen?
  | .subStr => fun _ args =>
    match args with
    | [s, start] => StringFunction.subStr? s start none
    | [s, start, length] => StringFunction.subStr? s start (some length)
    | _ => none
  | .upperCase => unary StringFunction.upperCase?
  | .lowerCase => unary StringFunction.lowerCase?
  | .strStarts => binary StringFunction.strStarts?
  | .strEnds => binary StringFunction.strEnds?
  | .contains => binary StringFunction.contains?
  | .strBefore => binary StringFunction.strBefore?
  | .strAfter => binary StringFunction.strAfter?
  | .encodeForUri => unary StringFunction.encodeForUri?
  | .concat => fun _ args => StringFunction.concat? args
  | .replace => fun _ args =>
    match args with
    | [s, pattern, replacement] =>
      StringFunction.replace? s pattern replacement none
    | [s, pattern, replacement, flags] =>
      StringFunction.replace? s pattern replacement (some flags)
    | _ => none
  | .regex => fun _ args =>
    match args with
    | [s, pattern] => StringFunction.regex? s pattern none
    | [s, pattern, flags] => StringFunction.regex? s pattern (some flags)
    | _ => none
  | .abs => numeric Number.abs?
  | .round => numeric Number.round?
  | .ceil => numeric Number.ceil?
  | .floor => numeric Number.floor?
  | .rand => nullary TermFunction.rand
  | .md5 => unary (StringFunction.digest? Text.Digest.md5)
  | .sha1 => unary (StringFunction.digest? Text.Digest.sha1)
  | .sha256 => unary (StringFunction.digest? Text.Digest.sha256)
  | .sha384 => unary (StringFunction.digest? Text.Digest.sha384)
  | .sha512 => unary (StringFunction.digest? Text.Digest.sha512)
  | .castString => unary Cast.string?
  | .castBoolean => unary Cast.boolean?
  | .castInteger => unary Cast.integer?
  | .castDecimal => unary Cast.decimal?
  | .castFloat => unary Cast.float?
  | .castDouble => unary Cast.double?
  | .castDateTime => unary Cast.dateTime?

/-- Finds the functions that expressions call. -/
abbrev FunctionRegistry := FunctionName → Option ScalarFunction

namespace FunctionRegistry

/-- The builtin functions and further ones named by IRIs. -/
def withCustom (custom : Iri → Option ScalarFunction) : FunctionRegistry
  | .builtin f => some f.apply
  | .custom name => custom name

/-- The builtin functions. -/
def builtins : FunctionRegistry := withCustom fun _ => none

end FunctionRegistry

end SparqlAlgebra
