import SparqlAlgebra.Algebra.Traversal
import SparqlAlgebra.Error

/-!
# Optimizer rules

A rule is a named change of a tree that may also report cross products. Rules
are applied one after the other.
-/

namespace SparqlAlgebra

/-- A change of a tree, and the cross products that it finds. -/
structure OptimizerRule where
  name : String
  run : Node → Except QueryError (Node × List String)

namespace OptimizerRule

/-- The rule that changes every node of a tree, bottom-up. -/
def bottomUp (name : String) (f : Node → Node) : OptimizerRule :=
  ⟨name, fun n => .ok (n.mapUp f, [])⟩

end OptimizerRule

/-- What the rules did and found. -/
structure OptimizerReport where
  /-- The names of the rules that were applied, in order. -/
  appliedRules : List String
  crossProducts : List String
deriving DecidableEq, Inhabited

namespace OptimizerReport

def empty : OptimizerReport := ⟨[], []⟩

def render (r : OptimizerReport) : String :=
  "Applied rules: " ++ String.intercalate ", " r.appliedRules ++ "\n" ++
    String.join (r.crossProducts.map fun text =>
      "Cross product: " ++ text ++ "\n")

/-- The report after a further rule. -/
def add (r : OptimizerReport) (name : String) (found : List String) :
    OptimizerReport :=
  ⟨r.appliedRules ++ [name], r.crossProducts ++ found⟩

end OptimizerReport

/-- Applies rules one after the other. -/
def applyRules : List OptimizerRule → Node → OptimizerReport →
    Except QueryError (Node × OptimizerReport)
  | [], n, report => .ok (n, report)
  | rule :: rest, n, report => do
    let (changed, found) ← rule.run n
    applyRules rest changed (report.add rule.name found)

end SparqlAlgebra
