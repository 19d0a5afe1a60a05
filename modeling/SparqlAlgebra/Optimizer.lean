import SparqlAlgebra.Optimizer.CrossProducts
import SparqlAlgebra.Optimizer.EarlyStop
import SparqlAlgebra.Optimizer.PatternOrder

/-!
# Optimization

Levels of optimization and the rules that each of them applies.
-/

namespace SparqlAlgebra

/-- How much is done to a tree. -/
inductive OptimizationLevel where
  /-- Nothing. -/
  | none
  /-- What does not depend on estimates. -/
  | default
  | full
deriving DecidableEq, Inhabited

/-- The rules of a level, in the order of their application. -/
def OptimizationLevel.rules (w : PatternWeights) :
    OptimizationLevel → List OptimizerRule
  | none => []
  | default => [CrossProducts.rule, EarlyStop.askRule, EarlyStop.limitRule]
  | full =>
    [PatternOrder.rule w, CrossProducts.rule, EarlyStop.askRule,
      EarlyStop.limitRule]

/-- Applies the rules of a level to a tree. -/
def optimize (level : OptimizationLevel) (w : PatternWeights) (n : Node) :
    Except QueryError (Node × OptimizerReport) :=
  applyRules (level.rules w) n .empty

end SparqlAlgebra
