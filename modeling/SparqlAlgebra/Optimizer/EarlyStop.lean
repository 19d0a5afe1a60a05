import SparqlAlgebra.Algebra.Structure
import SparqlAlgebra.Number.Bounded
import SparqlAlgebra.Optimizer.Rule

/-!
# Stopping early

Rules that tell the input of a node how many of its solutions are needed.
-/

namespace SparqlAlgebra

namespace EarlyStop

/-- Asking for a solution needs one solution. -/
def limitAsk : Node → Node
  | .ask (.limit inner n) => .ask (.limit inner n)
  | .ask inner => .ask (.limit inner 1)
  | n => n

def askRule : OptimizerRule := .bottomUp "ask-specialization" limitAsk

/-- Whether a node must see all solutions of its input before its first one. -/
def needsAll : Node → Bool
  | .orderBy _ _ | .group _ _ _ | .having _ _ | .custom _ _ _ => true
  | _ => false

/-- Whether the input of a slice may be told how many solutions are needed. -/
def canStop : Node → Bool
  | .limit _ _ => false
  | n => !n.any needsAll

/-- A slice with a limit needs the solutions up to its end. -/
def limitSlice : Node → Node
  | .slice inner offset (some count) =>
    if canStop inner then
      .slice (.limit inner (addCounts offset count)) offset (some count)
    else .slice inner offset (some count)
  | n => n

def limitRule : OptimizerRule := .bottomUp "limit-specialization" limitSlice

end EarlyStop

end SparqlAlgebra
