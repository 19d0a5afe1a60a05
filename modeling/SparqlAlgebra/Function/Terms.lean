import SparqlAlgebra.Function.Strings
import SparqlAlgebra.Text.IriGrammar
import SparqlAlgebra.Text.LanguageTag

/-!
# Functions on terms

Parts and kinds of terms, and terms made from strings. Every function fails
with `none` on terms it is not defined for.
-/

namespace SparqlAlgebra

/-- What a call knows of the query it belongs to. -/
structure CallContext where
  queryId : Nat
  /-- The solution that the call is evaluated for. -/
  bindingId : Nat
  /-- A number that no other call of the query gets. -/
  draw : Nat
deriving Inhabited

namespace TermFunction

/-! ## Parts and kinds -/

/-- The text of an IRI or a literal. -/
def str? : Term → Option Term
  | .iri i => some (simpleTerm i.value)
  | .literal l => some (simpleTerm l.lexical)
  | .blank _ => none

def lang? : Term → Option Term
  | .literal l => some (simpleTerm (l.language.getD ""))
  | _ => none

def datatype? : Term → Option Term
  | .literal l => some (.iri l.datatype)
  | _ => none

def isIri : Term → Bool
  | .iri _ => true
  | _ => false

def isBlank : Term → Bool
  | .blank _ => true
  | _ => false

def isLiteral : Term → Bool
  | .literal _ => true
  | _ => false

def isNumeric (t : Term) : Bool := (Number.ofTerm? t).isSome

/-- Whether a language tag matches a range: the range is a star, or the tag or
its beginning up to a hyphen, both without regard to case. -/
def matchesLanguage (tag range : String) : Bool :=
  if range = "*" then tag ≠ ""
  else
    let t := (TextValue.lowerTag tag).toList
    let r := (TextValue.lowerTag range).toList
    t = r || (r ++ ['-']).isPrefixOf t

def langMatches? (tag range : Term) : Option Term := do
  let tag ← TextValue.simple? tag
  let range ← TextValue.simple? range
  return boolTerm (matchesLanguage tag range)

/-! ## Terms from strings -/

/-- The IRI itself, or that of a string which is an absolute IRI. -/
def iri? : Term → Option Term
  | .iri i => some (.iri i)
  | .literal l => do
    let text ← TextValue.simple? (.literal l)
    if Text.isAbsoluteIri text then some (.iri ⟨text⟩) else none
  | .blank _ => none

def strDt? (value datatype : Term) : Option Term := do
  let text ← TextValue.simple? value
  match datatype with
  | .iri i => some (.literal (.typed text i))
  | _ => none

def strLang? (value language : Term) : Option Term := do
  let text ← TextValue.simple? value
  let tag ← TextValue.simple? language
  if Text.isLanguageTag tag then
    some (.literal (.tagged text (TextValue.lowerTag tag)))
  else none

/-! ## New terms

What is new is random, and no two runs of a query agree on it. Here the numbers of the query
and of the call take the place of chance: they tell the calls apart, but that two runs give
a call the same number means nothing. -/

/-- The characters of a text as pairs of hexadecimal digits. -/
def hexText (text : String) : String :=
  String.ofList ((Text.utf8Bytes text).flatMap Text.hexByte)

/-- A blank node that no other call makes. -/
def freshBlank (context : CallContext) : Term :=
  .blank <| .fresh <|
    "q" ++ toString context.queryId ++ "d" ++ toString context.draw

/-- The blank node of a label: the same one for the same label in the same
solution, and no other time. -/
def labelledBlank? (context : CallContext) (label : Term) : Option Term := do
  let text ← TextValue.simple? label
  return .blank <| .fresh <|
    "q" ++ toString context.queryId ++ "x" ++ toString context.bindingId ++
      "x" ++ hexText text

/-- A text in the form of a random identifier, from the number of the draw. -/
def uuidText (context : CallContext) : String :=
  let digits := Nat.toDigits 16 context.draw
  let filled := List.replicate (12 - digits.length) '0' ++ digits
  "00000000-0000-4000-8000-" ++ String.ofList filled

def uuid (context : CallContext) : Term :=
  .iri ⟨"urn:uuid:" ++ uuidText context⟩

def strUuid (context : CallContext) : Term := simpleTerm (uuidText context)

/-- A number from zero to one. Multiples of the golden ratio without their
whole part lie evenly and do not repeat. -/
def rand (context : CallContext) : Term :=
  let range := Nat.pow 2 32
  let n := (context.draw + 1) * 2654435769 % range
  Number.toTerm (.double (Float.ofNat n / Float.ofNat range))

end TermFunction

end SparqlAlgebra
