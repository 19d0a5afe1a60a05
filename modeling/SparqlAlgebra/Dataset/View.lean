import SparqlAlgebra.ActiveGraph
import SparqlAlgebra.Dataset
import SparqlAlgebra.Distinct
import SparqlAlgebra.Query

/-!
# Views of a dataset

What a query sees of a dataset: the graph that its patterns are matched
against, the named graphs it may name, and the triples and nodes in them.
-/

namespace SparqlAlgebra

/-- The part of a dataset that patterns read. -/
structure DatasetView where
  dataset : Dataset
  defaultGraph : ActiveGraph
  /-- The named graphs that are available, unless all of the dataset are. -/
  listedGraphs : Option (List Resource)
  /-- The graphs that were made active, the latest first. -/
  scopes : List ActiveGraph

namespace DatasetView

/-- Checks that the dataset has the graphs that a query lists. -/
def checkGraphs (d : Dataset) : List Iri → Except QueryError Unit
  | [] => .ok ()
  | name :: rest =>
    match d.hasGraph (.iri name) with
    | .error text => .error (.storage text)
    | .ok false => .error (.graphDoesNotExist name)
    | .ok true => checkGraphs d rest

/-- The view of a query. A query that lists graphs sees these only; any other
sees the default graph, or the union of all graphs. -/
def ofQuery? (d : Dataset) (spec : Option DatasetSpec) (unionOfAll : Bool) :
    Except QueryError DatasetView :=
  if d.poisoned then .error .datasetPoisoned
  else
    match spec with
    | some spec => do
      let named := spec.named.getD []
      checkGraphs d (spec.default ++ named)
      return ⟨d, .union (spec.default.map fun i => .named (.iri i)),
        some (named.map .iri), []⟩
    | none =>
      .ok ⟨d, if unionOfAll then .all else .default, none, []⟩

/-! ## Scopes -/

/-- The graph that patterns are matched against. -/
def activeGraph (v : DatasetView) : ActiveGraph :=
  v.scopes.head?.getD v.defaultGraph

/-- Makes a graph the active one. -/
def enter (v : DatasetView) (g : ActiveGraph) : DatasetView :=
  { v with scopes := g :: v.scopes }

/-- Makes the graph before the active one active again. -/
def leave (v : DatasetView) : DatasetView :=
  { v with scopes := v.scopes.tail }

/-- The number of graphs that were made active. -/
def depth (v : DatasetView) : Nat := v.scopes.length

/-! ## Reading -/

/-- The named graphs that the name of a graph ranges over. -/
def namedGraphs (v : DatasetView) : Except String (List Resource) :=
  match v.listedGraphs with
  | some graphs => .ok graphs
  | none => v.dataset.graphs

/-- Whether a named graph can be made active. -/
def isAvailable (v : DatasetView) (name : Resource) : Except String Bool :=
  match v.listedGraphs with
  | some graphs => .ok (graphs.contains name)
  | none => v.dataset.hasGraph name

/-- The quads of each of the graphs that match a pattern, graph by graph. -/
def quadsOfGraphs (d : Dataset) (p : QuadPattern) :
    List GraphName → Except String (List Quad)
  | [] => .ok []
  | g :: rest => do
    let quads ← d.select { p with graph := some g }
    return quads ++ (← quadsOfGraphs d p rest)

/-- The triples of the active graph that match a pattern. If it spans several
graphs, a triple that more than one of them contains is returned once. -/
def triples (v : DatasetView) (subject : Option Term) (predicate : Option Iri)
    (object : Option Term) : Except String (List Triple) := do
  let p : QuadPattern := ⟨none, subject, predicate, object⟩
  let quads ← match v.activeGraph.graphNames? with
    | none => v.dataset.select p
    | some graphs => quadsOfGraphs v.dataset p graphs
  let found := quads.map Quad.triple
  return if v.activeGraph.isMerged then dedup found else found

/-- The subjects and objects of the active graph, each at its first
occurrence. -/
def nodes (v : DatasetView) : Except String (List Term) := do
  let all ← v.triples none none none
  return dedup (all.flatMap fun t => [t.subject.toTerm, t.object])

/-- A number that the number of nodes of any part of the dataset does not
exceed. -/
def nodeBound (v : DatasetView) : Nat :=
  match v.dataset.contents with
  | .ok quads => 2 * quads.length
  | .error _ => 0

end DatasetView

end SparqlAlgebra
