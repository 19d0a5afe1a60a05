/-!
# RDF terms

The values that queries work on: IRIs, blank nodes and literals, the variables
that stand for them, and the text each of them is written as.
-/

namespace SparqlAlgebra

/-- An IRI, compared as the string it is written as. -/
structure Iri where
  value : String
deriving DecidableEq, Inhabited

/-- A blank node. Those of data and queries are identified by their labels. New
ones are told apart by keys and differ from all labelled ones. -/
inductive BlankNode where
  | labelled (label : String)
  | fresh (key : String)
deriving DecidableEq, Inhabited

/-- The text that stands for a blank node. -/
def BlankNode.label : BlankNode → String
  | labelled label => label
  | fresh key => key

/-- A literal. Two literals are the same term exactly if lexical form, datatype
and language tag are equal as strings. -/
structure Literal where
  lexical : String
  datatype : Iri
  language : Option String
deriving DecidableEq, Inhabited

/-- An RDF term. -/
inductive Term where
  | iri (iri : Iri)
  | blank (node : BlankNode)
  | literal (literal : Literal)
deriving DecidableEq, Inhabited

/-- What can be a subject or name a graph: an IRI or a blank node. -/
inductive Resource where
  | iri (iri : Iri)
  | blank (node : BlankNode)
deriving DecidableEq, Inhabited

/-- A query variable, without its leading question mark. -/
structure Var where
  name : String
deriving DecidableEq, Inhabited

/-- Variables are ordered by the code points of their names. -/
instance : LT Var := ⟨fun v w => v.name < w.name⟩

instance (v w : Var) : Decidable (v < w) :=
  inferInstanceAs (Decidable (v.name < w.name))

/-- The term that a resource is. -/
def Resource.toTerm : Resource → Term
  | .iri i => .iri i
  | .blank b => .blank b

/-- The resource that a term is, if it is not a literal. -/
def Term.toResource? : Term → Option Resource
  | .iri i => some (.iri i)
  | .blank b => some (.blank b)
  | .literal _ => none

@[simp] theorem Resource.toResource?_toTerm (r : Resource) :
    r.toTerm.toResource? = some r := by
  cases r <;> rfl

theorem Term.toResource?_eq_some_iff {t : Term} {r : Resource} :
    t.toResource? = some r ↔ t = r.toTerm := by
  cases t <;> cases r <;> simp [Term.toResource?, Resource.toTerm]

/-! ## Datatypes -/

namespace Datatype

/-- The namespace of the XML Schema datatypes. -/
def xsd (name : String) : Iri := ⟨"http://www.w3.org/2001/XMLSchema#" ++ name⟩

def string : Iri := xsd "string"
def boolean : Iri := xsd "boolean"
def integer : Iri := xsd "integer"
def decimal : Iri := xsd "decimal"
def float : Iri := xsd "float"
def double : Iri := xsd "double"
def dateTime : Iri := xsd "dateTime"

/-- The datatype of literals with a language tag. -/
def langString : Iri :=
  ⟨"http://www.w3.org/1999/02/22-rdf-syntax-ns#langString"⟩

end Datatype

/-- A literal of datatype `xsd:string`. -/
def Literal.simple (lexical : String) : Literal :=
  ⟨lexical, Datatype.string, none⟩

/-- A literal of the given datatype. -/
def Literal.typed (lexical : String) (datatype : Iri) : Literal :=
  ⟨lexical, datatype, none⟩

/-- A literal with a language tag. -/
def Literal.tagged (lexical language : String) : Literal :=
  ⟨lexical, Datatype.langString, some language⟩

/-- The literal `true` or `false`. -/
def Literal.ofBool (b : Bool) : Literal :=
  .typed (if b then "true" else "false") Datatype.boolean

/-- The `xsd:integer` literal of an integer in its shortest decimal form. -/
def Literal.ofInt (n : Int) : Literal := .typed (toString n) Datatype.integer

/-! ## Text -/

/-- The upper-case hexadecimal digit of a number below sixteen. -/
def upperHexDigit (n : Nat) : Char :=
  if n < 10 then Char.ofNat (48 + n) else Char.ofNat (55 + n)

/-- One character of a quoted lexical form. Quotes, backslashes and control
characters are escaped, everything else stands for itself. -/
def escapeLexicalChar (c : Char) : List Char :=
  match c with
  | '\x08' => ['\\', 'b']
  | '\t' => ['\\', 't']
  | '\n' => ['\\', 'n']
  | '\x0c' => ['\\', 'f']
  | '\r' => ['\\', 'r']
  | '"' => ['\\', '"']
  | '\\' => ['\\', '\\']
  | c =>
    if c.toNat < 0x20 ∨ c.toNat = 0x7f then
      ['\\', 'u', '0', '0', upperHexDigit (c.toNat / 16),
        upperHexDigit (c.toNat % 16)]
    else [c]

/-- A lexical form in double quotes. -/
def quoteLexical (lexical : String) : String :=
  String.ofList ('"' :: lexical.toList.flatMap escapeLexicalChar ++ ['"'])

def Iri.render (iri : Iri) : String := "<" ++ iri.value ++ ">"

def BlankNode.render (node : BlankNode) : String := "_:" ++ node.label

/-- A literal as it is written in queries. The datatype of plain strings and of
tagged strings is left out; a tagged-string literal without a tag shows it. -/
def Literal.render (l : Literal) : String :=
  match l.language with
  | some tag => quoteLexical l.lexical ++ "@" ++ tag
  | none =>
    if l.datatype = Datatype.string then quoteLexical l.lexical
    else quoteLexical l.lexical ++ "^^" ++ l.datatype.render

def Term.render : Term → String
  | .iri i => i.render
  | .blank b => b.render
  | .literal l => l.render

def Var.render (v : Var) : String := "?" ++ v.name

/-- A list of texts with a separator between any two neighbours. -/
def joinTexts (separator : String) (texts : List String) : String :=
  String.intercalate separator texts

end SparqlAlgebra
