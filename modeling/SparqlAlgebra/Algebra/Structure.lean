import SparqlAlgebra.Algebra

/-!
# The structure of trees

The name of a node, its inputs, the expressions attached to it, and searches
through a tree. Patterns inside expressions are not inputs.
-/

namespace SparqlAlgebra

/-- The name of the kind of a node. -/
def Node.name : Node → String
  | .bgp _ => "Bgp"
  | .join _ _ => "Join"
  | .leftJoin _ _ _ => "LeftJoin"
  | .union _ _ => "Union"
  | .minus _ _ => "Minus"
  | .existsJoin _ _ false => "ExistsJoin"
  | .existsJoin _ _ true => "NotExistsJoin"
  | .filter _ _ => "Filter"
  | .extend _ _ _ => "Extend"
  | .group _ _ _ => "Group"
  | .having _ _ => "Having"
  | .orderBy _ _ => "OrderBy"
  | .distinct _ => "Distinct"
  | .reduced _ => "Reduced"
  | .project _ _ => "Project"
  | .slice _ _ _ => "Slice"
  | .graph _ _ => "Graph"
  | .service _ _ _ _ => "Service"
  | .ask _ => "Ask"
  | .values _ _ => "Values"
  | .pathSearch _ .zeroLength _ => "ZeroLengthPath"
  | .pathSearch _ (.zeroOrMore _) _ => "ZeroOrMorePath"
  | .pathSearch _ (.oneOrMore _) _ => "OneOrMorePath"
  | .pathSearch _ (.negatedSet _ _) _ => "NegatedPropertySet"
  | .limit _ _ => "Limit"
  | .custom name _ _ => name

/-- The query that an element is. -/
def Element.query? : Element → Option Node
  | .subQuery query => some query
  | _ => none

/-- The expression of an element. -/
def Element.expression? : Element → Option Expr
  | .assign _ e | .filter e => some e
  | _ => none

/-- The expression that a value of a group is computed from. -/
def GroupValue.argument? : GroupValue → Option Expr
  | .countRows _ _ => none
  | .apply _ _ e _ => some e

def OrderKey.expression : OrderKey → Expr
  | .sortBy e _ => e

/-- The inputs of a node; those of a basic graph pattern are its sub-queries. -/
def Node.children : Node → List Node
  | .bgp elements => elements.filterMap Element.query?
  | .join l r | .leftJoin l r _ | .union l r | .minus l r
  | .existsJoin l r _ => [l, r]
  | .filter inner _ | .extend inner _ _ | .group inner _ _ | .having inner _
  | .orderBy inner _ | .distinct inner | .reduced inner | .project inner _
  | .slice inner _ _ | .graph inner _ | .ask inner | .limit inner _ => [inner]
  | .service _ _ _ _ | .values _ _ | .pathSearch _ _ _ => []
  | .custom _ _ children => children

/-- The expressions that are attached to a node. -/
def Node.expressions : Node → List Expr
  | .bgp elements => elements.filterMap Element.expression?
  | .leftJoin _ _ condition => condition.toList
  | .filter _ e | .extend _ _ e | .having _ e => [e]
  | .group _ _ columns => columns.filterMap GroupValue.argument?
  | .orderBy _ keys => keys.map OrderKey.expression
  | _ => []

/-! ## Searches -/

mutual

/-- Whether a node or a node below it satisfies a test. -/
def Node.any (test : Node → Bool) : Node → Bool
  | n@(.bgp elements) => test n || Element.anyIn test elements
  | n@(.join l r) | n@(.leftJoin l r _) | n@(.union l r) | n@(.minus l r)
  | n@(.existsJoin l r _) => test n || l.any test || r.any test
  | n@(.filter inner _) | n@(.extend inner _ _) | n@(.group inner _ _)
  | n@(.having inner _) | n@(.orderBy inner _) | n@(.distinct inner)
  | n@(.reduced inner) | n@(.project inner _) | n@(.slice inner _ _)
  | n@(.graph inner _) | n@(.ask inner) | n@(.limit inner _) =>
    test n || inner.any test
  | n@(.service _ _ _ _) | n@(.values _ _) | n@(.pathSearch _ _ _) => test n
  | n@(.custom _ _ children) => test n || Node.anyIn test children

def Node.anyIn (test : Node → Bool) : List Node → Bool
  | [] => false
  | n :: rest => n.any test || Node.anyIn test rest

def Element.anyIn (test : Node → Bool) : List Element → Bool
  | [] => false
  | .subQuery query :: rest => query.any test || Element.anyIn test rest
  | _ :: rest => Element.anyIn test rest

end

mutual

/-- The number of expressions in an expression, itself included. Patterns
count as nothing. -/
def Expr.size : Expr → Nat
  | .constant _ | .var _ | .bound _ | .hasMatch _ => 1
  | .unary _ e => e.size + 1
  | .binary _ l r => l.size + r.size + 1
  | .isIn e es => e.size + Expr.sizeOfAll es + 1
  | .cond c t e => c.size + t.size + e.size + 1
  | .coalesce es | .call _ es => Expr.sizeOfAll es + 1

def Expr.sizeOfAll : List Expr → Nat
  | [] => 0
  | e :: rest => e.size + Expr.sizeOfAll rest

end

mutual

/-- Whether an expression asks for the matches of a pattern. -/
def Expr.containsMatch : Expr → Bool
  | .constant _ | .var _ | .bound _ => false
  | .hasMatch _ => true
  | .unary _ e => e.containsMatch
  | .binary _ l r => l.containsMatch || r.containsMatch
  | .isIn e es => e.containsMatch || Expr.containMatch es
  | .cond c t e => c.containsMatch || t.containsMatch || e.containsMatch
  | .coalesce es | .call _ es => Expr.containMatch es

def Expr.containMatch : List Expr → Bool
  | [] => false
  | e :: rest => e.containsMatch || Expr.containMatch rest

end

end SparqlAlgebra
