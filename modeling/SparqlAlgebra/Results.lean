import SparqlAlgebra.Quad
import SparqlAlgebra.Solutions

/-!
# Results of queries

What a query returns: solutions, a truth value or a graph.
-/

namespace SparqlAlgebra

/-- The result of a query, by its form. -/
inductive QueryResults where
  | solutions (s : Solutions)
  | boolean (b : Bool)
  | graph (triples : List Triple)
deriving DecidableEq, Inhabited

namespace QueryResults

/-- The variables of solutions; other results have none. -/
def vars : QueryResults → List Var
  | solutions s => s.vars
  | boolean _ | graph _ => []

/-- The number of solutions or triples. A truth value counts as one. -/
def size : QueryResults → Nat
  | solutions s => s.size
  | boolean _ => 1
  | graph triples => triples.length

def isEmpty (r : QueryResults) : Bool := r.size = 0

end QueryResults

end SparqlAlgebra
