import SparqlAlgebra.Term

/-!
# Quads

Triples, the graphs that hold them, and patterns with free positions.
-/

namespace SparqlAlgebra

/-- The graph of a dataset that a quad belongs to. -/
inductive GraphName where
  | default
  | named (name : Resource)
deriving DecidableEq, Inhabited

/-- A triple of an RDF graph. -/
structure Triple where
  subject : Resource
  predicate : Iri
  object : Term
deriving DecidableEq, Inhabited

/-- A triple of a graph of a dataset. -/
structure Quad where
  subject : Resource
  predicate : Iri
  object : Term
  graph : GraphName
deriving DecidableEq, Inhabited

/-- The triple without the graph it belongs to. -/
def Quad.triple (q : Quad) : Triple := ⟨q.subject, q.predicate, q.object⟩

/-- What quads are looked up by: one position of a quad. -/
inductive QuadKey where
  | graph (name : GraphName)
  | subject (term : Term)
  | predicate (iri : Iri)
  | object (term : Term)
deriving DecidableEq

/-- The four positions of a quad. -/
def Quad.keys (q : Quad) : List QuadKey :=
  [.graph q.graph, .subject q.subject.toTerm, .predicate q.predicate,
    .object q.object]

/-- A pattern of quads; `none` matches any term. The subject may be a literal,
which no quad has. -/
structure QuadPattern where
  graph : Option GraphName
  subject : Option Term
  predicate : Option Iri
  object : Option Term
deriving DecidableEq, Inhabited

namespace QuadPattern

/-- The pattern that every quad matches. -/
def all : QuadPattern := ⟨none, none, none, none⟩

/-- The bound positions of a pattern. -/
def keys (p : QuadPattern) : List QuadKey :=
  (p.graph.map .graph).toList ++ (p.subject.map .subject).toList ++
    (p.predicate.map .predicate).toList ++ (p.object.map .object).toList

/-- Whether a quad has the bound terms of the pattern at their positions. -/
def matchesQuad (p : QuadPattern) (q : Quad) : Bool :=
  p.keys.all (q.keys.contains ·)

end QuadPattern

end SparqlAlgebra
