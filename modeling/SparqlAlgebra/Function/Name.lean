import SparqlAlgebra.Term

/-!
# Names of functions

The functions that expressions can call: the builtin ones, under the names they
are written with, and others that are named by an IRI.
-/

namespace SparqlAlgebra

/-- The builtin functions. Forms that do not evaluate all their arguments are
expressions of their own. -/
inductive Builtin where
  | str | lang | langMatches | datatype | iri | bnode | strDt | strLang
  | uuid | strUuid | isIri | isBlank | isLiteral | isNumeric
  | strLen | subStr | upperCase | lowerCase | strStarts | strEnds | contains
  | strBefore | strAfter | encodeForUri | concat | replace | regex
  | abs | round | ceil | floor | rand
  | md5 | sha1 | sha256 | sha384 | sha512
  | castString | castBoolean | castInteger | castDecimal | castFloat
  | castDouble | castDateTime
deriving DecidableEq, Inhabited

namespace Builtin

/-- The builtin functions with the names they are written with. -/
def table : List (Builtin × String) :=
  [(str, "STR"), (lang, "LANG"), (langMatches, "LANGMATCHES"),
    (datatype, "DATATYPE"), (iri, "IRI"), (bnode, "BNODE"), (strDt, "STRDT"),
    (strLang, "STRLANG"), (uuid, "UUID"), (strUuid, "STRUUID"),
    (isIri, "isIRI"), (isBlank, "isBLANK"), (isLiteral, "isLITERAL"),
    (isNumeric, "isNUMERIC"), (strLen, "STRLEN"), (subStr, "SUBSTR"),
    (upperCase, "UCASE"), (lowerCase, "LCASE"), (strStarts, "STRSTARTS"),
    (strEnds, "STRENDS"), (contains, "CONTAINS"), (strBefore, "STRBEFORE"),
    (strAfter, "STRAFTER"), (encodeForUri, "ENCODE_FOR_URI"),
    (concat, "CONCAT"), (replace, "REPLACE"), (regex, "REGEX"), (abs, "ABS"),
    (round, "ROUND"), (ceil, "CEIL"), (floor, "FLOOR"), (rand, "RAND"),
    (md5, "MD5"), (sha1, "SHA1"), (sha256, "SHA256"), (sha384, "SHA384"),
    (sha512, "SHA512"), (castString, "xsd:string"),
    (castBoolean, "xsd:boolean"), (castInteger, "xsd:integer"),
    (castDecimal, "xsd:decimal"), (castFloat, "xsd:float"),
    (castDouble, "xsd:double"), (castDateTime, "xsd:dateTime")]

/-- The name that a function is written with. -/
def render (f : Builtin) : String := (table.lookup f).getD ""

/-- The function that is written with a name. -/
def ofName? (name : String) : Option Builtin :=
  (table.find? fun entry => entry.2 = name).map (·.1)

theorem ofName?_render (f : Builtin) : ofName? f.render = some f := by
  cases f <;> decide +kernel

/-- The function that casts to a datatype. -/
def ofDatatype? (datatype : Iri) : Option Builtin :=
  [(Datatype.string, castString), (Datatype.boolean, castBoolean),
    (Datatype.integer, castInteger), (Datatype.decimal, castDecimal),
    (Datatype.float, castFloat), (Datatype.double, castDouble),
    (Datatype.dateTime, castDateTime)].lookup datatype

end Builtin

/-- The name of a function in an expression. -/
inductive FunctionName where
  | builtin (name : Builtin)
  | custom (name : Iri)
deriving DecidableEq, Inhabited

def FunctionName.render : FunctionName → String
  | .builtin f => f.render
  | .custom name => name.render

end SparqlAlgebra
