import SparqlAlgebra.DateTime
import SparqlAlgebra.Number

/-!
# Values of terms

What literals mean to conditions, comparisons and sorting: effective boolean
values, equality and order of values, and the order of solutions.
-/

namespace SparqlAlgebra

/-- A string with an optional language tag. -/
structure TextValue where
  text : String
  language : Option String
deriving DecidableEq, Inhabited

namespace TextValue

/-- The string that a literal is, if it is one. -/
def ofLiteral? (l : Literal) : Option TextValue :=
  if l.datatype = Datatype.string then some ⟨l.lexical, none⟩
  else if l.datatype = Datatype.langString then some ⟨l.lexical, l.language⟩
  else none

/-- The string that a term is, if it is one. -/
def ofTerm? : Term → Option TextValue
  | .literal l => ofLiteral? l
  | _ => none

/-- The text of a string term without a language tag. -/
def simple? (t : Term) : Option String := do
  let s ← ofTerm? t
  if s.language.isNone then some s.text else none

/-- The lower-case form of a language tag. -/
def lowerTag (tag : String) : String :=
  String.ofList (tag.toList.map Char.toLower)

/-- The literal of a string. Its tag is written in lower case. -/
def toTerm (s : TextValue) : Term :=
  match s.language with
  | none => .literal (.simple s.text)
  | some tag => .literal (.tagged s.text (lowerTag tag))

/-- The string term of another text with the same tag. -/
def withText (s : TextValue) (text : String) : Term :=
  toTerm { s with text := text }

/-- The language tag that all strings have. -/
def sharedLanguage : List TextValue → Option String
  | [] => none
  | first :: rest =>
    if rest.all fun t => t.language = first.language then first.language
    else none

/-- The strings with a separator between any two neighbours. A language tag
that all of them have is kept. -/
def join (separator : String) (texts : List TextValue) : Term :=
  toTerm ⟨joinTexts separator (texts.map (·.text)), sharedLanguage texts⟩

end TextValue

/-- The boolean with the given lexical form. -/
def parseBoolean? (text : String) : Option Bool :=
  if text = "true" || text = "1" then some true
  else if text = "false" || text = "0" then some false
  else none

/-- The value of a literal with a known datatype and a valid lexical form. -/
inductive TypedValue where
  | text (s : TextValue)
  | boolean (b : Bool)
  | number (x : Number)
  | dateTime (t : DateTime)
deriving Inhabited

namespace TypedValue

def ofLiteral? (l : Literal) : Option TypedValue :=
  if l.datatype = Datatype.string then some (text ⟨l.lexical, none⟩)
  else if l.datatype = Datatype.langString then
    some (text ⟨l.lexical, l.language⟩)
  else if l.datatype = Datatype.boolean then
    (parseBoolean? l.lexical).map boolean
  else if l.datatype = Datatype.dateTime then
    (DateTime.parse? l.lexical).map dateTime
  else (Number.ofLiteral? l).map number

def ofTerm? : Term → Option TypedValue
  | .literal l => ofLiteral? l
  | _ => none

/-- Whether two values are equal. Values of different kinds are not. -/
def equals : TypedValue → TypedValue → Bool
  | text a, text b => a = b
  | boolean a, boolean b => a = b
  | number a, number b => a.compare? b = some .eq
  | dateTime a, dateTime b => a.sameInstant b
  | _, _ => false

/-- The order of two values of one kind. Strings are ordered by code point and
only within one language. -/
def compare? : TypedValue → TypedValue → Option Ordering
  | text a, text b =>
    if a.language = b.language then some (compare a.text b.text) else none
  | boolean a, boolean b => some (compare a b)
  | number a, number b => a.compare? b
  | dateTime a, dateTime b => a.compare? b
  | _, _ => none

end TypedValue

/-! ## Operators on terms -/

/-- The boolean that a term counts as in a condition. Ill-formed booleans and
numbers count as false. -/
def effectiveBooleanValue? : Term → Option Bool
  | .literal l =>
    if l.datatype = Datatype.boolean then
      some ((parseBoolean? l.lexical).getD false)
    else if l.datatype = Datatype.string then some (l.lexical ≠ "")
    else if Number.isNumericType l.datatype then
      some (((Number.ofLiteral? l).map Number.isTruthy).getD false)
    else none
  | _ => none

/-- Equality of values. Two literals of which one has no known value are equal
if they are the same term and otherwise not comparable. -/
def sparqlEquals? (a b : Term) : Option Bool :=
  match a, b with
  | .literal l, .literal m =>
    match TypedValue.ofLiteral? l, TypedValue.ofLiteral? m with
    | some x, some y => some (x.equals y)
    | _, _ => if l = m then some true else none
  | a, b => some (a = b)

/-- Order of values of literals. -/
def sparqlCompare? (a b : Term) : Option Ordering := do
  let x ← TypedValue.ofTerm? a
  let y ← TypedValue.ofTerm? b
  x.compare? y

/-! ## Order of solutions -/

/-- Orders optional tags: a missing tag comes first. -/
private def compareTags : Option String → Option String → Ordering
  | none, none => .eq
  | none, some _ => .lt
  | some _, none => .gt
  | some a, some b => compare a b

/-- Orders literals without regard to their values. -/
def compareLiteralTexts (l m : Literal) : Ordering :=
  (compare l.lexical m.lexical).then <|
    (compare l.datatype.value m.datatype.value).then <|
      compareTags l.language m.language

/-- The place of a kind of term in the order of solutions. -/
private def rank : Option Term → Nat
  | none => 0
  | some (.blank _) => 1
  | some (.iri _) => 2
  | some (.literal _) => 3

/-- The order of solutions: unbound, blank nodes, IRIs, literals. Literals are
compared by value if possible and else by their text. -/
def orderByCompare (a b : Option Term) : Ordering :=
  match a, b with
  | some (.blank x), some (.blank y) => compare x.label y.label
  | some (.iri x), some (.iri y) => compare x.value y.value
  | some (.literal l), some (.literal m) =>
    (sparqlCompare? (.literal l) (.literal m)).getD (compareLiteralTexts l m)
  | a, b => compare (rank a) (rank b)

end SparqlAlgebra
