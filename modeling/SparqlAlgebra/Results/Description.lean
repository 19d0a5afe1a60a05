import SparqlAlgebra.Dataset.View
import SparqlAlgebra.Solutions

/-!
# Descriptions of resources

The description of a resource consists of the triples with that subject, and of
the descriptions of the blank nodes among their objects.
-/

namespace SparqlAlgebra

namespace Description

def isResource : Term → Bool
  | .iri _ | .blank _ => true
  | .literal _ => false

def isBlank : Term → Bool
  | .blank _ => true
  | .iri _ | .literal _ => false

/-- The IRIs and blank nodes in solutions, each at its first occurrence. -/
def roots (s : Solutions) : List Term :=
  dedup (s.rows.flatMap fun b =>
    (b.entries.map (·.2)).filter isResource)

/-- The blank nodes that triples lead to, except those already visited. -/
def newBlanks (visited : List Term) (triples : List Triple) : List Term :=
  dedup ((triples.map (·.object)).filter fun t =>
    isBlank t && !visited.contains t)

/-- Describes the resources in the queue one after the other. Every visited
resource enters the queue once. -/
def search (triplesOf : Term → Except String (List Triple)) :
    Nat → List Term → List Term → Except String (List Triple)
  | _, [], _ => .ok []
  | 0, _, _ => .ok []
  | fuel + 1, t :: queue, visited => do
    let triples ← triplesOf t
    let new := newBlanks visited triples
    return triples ++
      (← search triplesOf fuel (queue ++ new) (visited ++ new))

end Description

/-- The triples that describe the resources in solutions. -/
def DatasetView.describe (v : DatasetView) (s : Solutions) :
    Except String (List Triple) :=
  let roots := Description.roots s
  Description.search (fun t => v.triples (some t) none none)
    (roots.length + v.nodeBound) roots roots

end SparqlAlgebra
