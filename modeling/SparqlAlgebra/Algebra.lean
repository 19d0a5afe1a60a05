import SparqlAlgebra.Path
import SparqlAlgebra.Query

/-!
# The query algebra

Trees of operators that yield solutions, and the expressions in them. Nodes and
expressions contain each other: an expression can ask whether a pattern has a
match.
-/

namespace SparqlAlgebra

/-- What a path pattern with a node of its own looks for. -/
inductive PathSearch where
  /-- Every node is related to itself. -/
  | zeroLength
  /-- The reflexive and transitive closure of a path. -/
  | zeroOrMore (path : Path)
  /-- The transitive closure of a path. -/
  | oneOrMore (path : Path)
  | negatedSet (forward backward : List Iri)
deriving DecidableEq, Inhabited

mutual

/-- An expression, which is evaluated for one solution. -/
inductive Expr where
  | constant (t : Term)
  | var (v : Var)
  /-- Whether a variable is bound. -/
  | bound (v : Var)
  | unary (op : UnaryOp) (operand : Expr)
  | binary (op : BinaryOp) (left right : Expr)
  /-- Whether a value equals one of the candidates. -/
  | isIn (needle : Expr) (candidates : List Expr)
  | cond (test yes no : Expr)
  /-- The first value that does not fail. -/
  | coalesce (args : List Expr)
  | call (function : FunctionName) (args : List Expr)
  /-- Whether a pattern has a solution that is compatible with this one. -/
  | hasMatch (pattern : Node)

/-- A value that is computed for a group and the variable that it is bound to. -/
inductive GroupValue where
  /-- The number of solutions, or of different ones. -/
  | countRows (target : Var) (distinct : Bool)
  /-- A function of the values, or of the distinct values, of an expression. -/
  | apply (target : Var) (function : AggregateFunction) (argument : Expr)
    (distinct : Bool)

/-- An expression to sort by. -/
inductive OrderKey where
  | sortBy (key : Expr) (descending : Bool)

/-- A part of a basic graph pattern. -/
inductive Element where
  | triple (pattern : TriplePattern)
  | path (subject : Position) (path : Path) (object : Position)
  /-- Binds a variable, which must not be bound yet. -/
  | assign (target : Var) (value : Expr)
  /-- A query of its own whose solutions are joined. -/
  | subQuery (query : Node)
  | filter (condition : Expr)

/-- An operator of the algebra with its inputs. -/
inductive Node where
  /-- The join of elements, each of which sees the bindings of those before. -/
  | bgp (elements : List Element)
  | join (left right : Node)
  /-- Extends the left solutions where possible. The condition is about the
  combined solutions. -/
  | leftJoin (left right : Node) (condition : Option Expr)
  | union (left right : Node)
  | minus (left right : Node)
  /-- Keeps the left solutions with a right solution, or those without. -/
  | existsJoin (left right : Node) (negated : Bool)
  | filter (inner : Node) (condition : Expr)
  | extend (inner : Node) (target : Var) (value : Expr)
  /-- One solution for each group of solutions with the same keys. -/
  | group (inner : Node) (keys : List Var) (values : List GroupValue)
  /-- A condition on the solutions of a grouping. -/
  | having (inner : Node) (condition : Expr)
  | orderBy (inner : Node) (keys : List OrderKey)
  | distinct (inner : Node)
  | reduced (inner : Node)
  | project (inner : Node) (vars : List Var)
  | slice (inner : Node) (offset : Nat) (limit : Option Nat)
  /-- Matches the inner patterns against a named graph. -/
  | graph (inner : Node) (name : NameRef)
  /-- A pattern that another endpoint evaluates. The endpoint is given the
  pattern as it is written; the variables are those of its algebra. -/
  | service (name : NameRef) (vars : List Var) (silent : Bool)
    (pattern : Query.Pattern := .bgp [])
  /-- One empty solution if there is a solution, else none. -/
  | ask (inner : Node)
  /-- Given rows; `none` leaves a variable unbound. -/
  | values (vars : List Var) (rows : List (List (Option Term)))
  | pathSearch (subject : Position) (search : PathSearch) (object : Position)
  /-- At most the first solutions, without computing more than these. -/
  | limit (inner : Node) (count : Nat)
  /-- An operator that is defined elsewhere. -/
  | custom (name : String) (vars : List Var) (children : List Node)

end

instance : Inhabited Expr := ⟨.constant default⟩

instance : Inhabited Node := ⟨.bgp []⟩

instance : Inhabited Element := ⟨.filter default⟩

/-- The variable that a value of a group is bound to. -/
def GroupValue.target : GroupValue → Var
  | countRows v _ | apply v _ _ _ => v

/-- A query over the algebra. -/
structure AlgebraQuery where
  root : Node
  form : QueryForm
  dataset : Option DatasetSpec
  base : Option String
deriving Inhabited

end SparqlAlgebra
