import SparqlAlgebra.Aggregate
import SparqlAlgebra.Function.Name
import SparqlAlgebra.Operator
import SparqlAlgebra.Pattern

/-!
# Queries

Queries as they are written: graph patterns, expressions and paths with the
structure of the query text, and what is made of the solutions.
-/

namespace SparqlAlgebra

/-- The graphs that a query names as its dataset. -/
structure DatasetSpec where
  /-- The graphs whose union is the default graph. -/
  default : List Iri
  /-- The graphs that can be named; absent if there are none. -/
  named : Option (List Iri)
deriving DecidableEq, Inhabited

/-- What is made of the solutions of a query. -/
inductive QueryForm where
  | select
  | ask
  /-- Triples with variables; blank nodes in it are terms. -/
  | construct (template : List TriplePattern)
  | describe
deriving DecidableEq, Inhabited

namespace Query

/-- A property path as it is written. -/
inductive Path where
  | predicate (predicate : Iri)
  | reverse (inner : Path)
  | sequence (first second : Path)
  | alternative (first second : Path)
  | zeroOrMore (inner : Path)
  | oneOrMore (inner : Path)
  | zeroOrOne (inner : Path)
  | negatedSet (predicates : List Iri)
deriving DecidableEq, Inhabited

/-- The functions on dates and times. -/
inductive DateFunction where
  | year | month | day | hours | minutes | seconds | timezone | tz | now
deriving DecidableEq, Inhabited

namespace DateFunction

/-- The functions with the names they are written with. -/
def table : List (DateFunction × String) :=
  [(year, "YEAR"), (month, "MONTH"), (day, "DAY"), (hours, "HOURS"),
    (minutes, "MINUTES"), (seconds, "SECONDS"), (timezone, "TIMEZONE"),
    (tz, "TZ"), (now, "NOW")]

def render (f : DateFunction) : String := (table.lookup f).getD ""

def ofName? (name : String) : Option DateFunction :=
  (table.find? fun entry => entry.2 = name).map (·.1)

end DateFunction

/-- A function as it is called in a query; casts are called by the IRI of their
datatype. -/
inductive Function where
  | function (name : FunctionName)
  | date (name : DateFunction)
deriving DecidableEq, Inhabited

mutual

/-- An expression as it is written. -/
inductive Expression where
  | constant (t : Term)
  | var (v : Var)
  | bound (v : Var)
  | unary (op : UnaryOp) (operand : Expression)
  | binary (op : BinaryOp) (left right : Expression)
  | isIn (needle : Expression) (candidates : List Expression)
  | cond (test yes no : Expression)
  | coalesce (args : List Expression)
  | call (function : Function) (args : List Expression)
  | hasMatch (pattern : Pattern)

/-- A value of a group and the variable that it is bound to. -/
inductive GroupValue where
  | countRows (target : Var) (distinct : Bool)
  | apply (target : Var) (function : AggregateFunction)
    (argument : Expression) (distinct : Bool)

/-- An expression to sort by. -/
inductive OrderKey where
  | sortBy (key : Expression) (descending : Bool)

/-- A graph pattern as it is written. Blank nodes in it stand for unknown
nodes. -/
inductive Pattern where
  | bgp (patterns : List TriplePattern)
  | path (subject : Position) (path : Path) (object : Position)
  | join (left right : Pattern)
  | leftJoin (left right : Pattern) (condition : Option Expression)
  | filter (inner : Pattern) (condition : Expression)
  | union (left right : Pattern)
  | graph (inner : Pattern) (name : NameRef)
  | extend (inner : Pattern) (target : Var) (value : Expression)
  | minus (left right : Pattern)
  | values (vars : List Var) (rows : List (List (Option Term)))
  | orderBy (inner : Pattern) (keys : List OrderKey)
  | project (inner : Pattern) (vars : List Var)
  | distinct (inner : Pattern)
  | reduced (inner : Pattern)
  | slice (inner : Pattern) (offset : Nat) (limit : Option Nat)
  | group (inner : Pattern) (keys : List Var) (values : List GroupValue)
  | service (inner : Pattern) (name : NameRef) (silent : Bool)

end

instance : Inhabited Expression := ⟨.constant default⟩

instance : Inhabited Pattern := ⟨.bgp []⟩

end Query

/-- A query. -/
structure Query where
  form : QueryForm
  pattern : Query.Pattern
  dataset : Option DatasetSpec
  base : Option String
deriving Inhabited

end SparqlAlgebra
