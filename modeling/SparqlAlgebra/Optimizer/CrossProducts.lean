import SparqlAlgebra.Algebra.Render
import SparqlAlgebra.Algebra.Variables
import SparqlAlgebra.Optimizer.Rule

/-!
# Cross products

Joins whose sides share no variable, which combine every solution of one side
with every solution of the other.
-/

namespace SparqlAlgebra

namespace CrossProducts

/-- Whether two non-empty lists have no variable in common. -/
def areDisjoint (vs ws : List Var) : Bool :=
  !vs.isEmpty && !ws.isEmpty && ws.all fun v => !vs.contains v

/-- Whether an element can take part in a cross product. -/
def isJoined : Element → Bool
  | .filter _ | .assign _ _ => false
  | _ => true

/-- The elements that share no variable with those before them, which bind
`bound`. -/
def ofElements (bound : List Var) : List Element → List String
  | [] => []
  | e :: rest =>
    let found :=
      if isJoined e && areDisjoint bound e.boundVariables then
        ["Bgp element '" ++ e.render ++
          "' shares no variable with the elements before it"]
      else []
    found ++ ofElements (bound ++ e.boundVariables) rest

/-- The cross products at a node itself. -/
def ofNode : Node → List String
  | .bgp elements => ofElements [] elements
  | .join l r =>
    if areDisjoint l.vars r.vars then
      ["Join of " ++ l.name ++ " and " ++ r.name ++ " shares no variable"]
    else []
  | _ => []

/-- Adds the cross products of a node to those found so far. -/
def record (n : Node) : StateM (List String) Node := do
  modify (· ++ ofNode n)
  return n

/-- Reports cross products and changes nothing. -/
def rule : OptimizerRule where
  name := "cross-product-detection"
  run n := .ok ((n.mapUpM record).run [])

end CrossProducts

end SparqlAlgebra
