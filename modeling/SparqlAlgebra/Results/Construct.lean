import SparqlAlgebra.Pattern
import SparqlAlgebra.Quad
import SparqlAlgebra.Solutions

/-!
# Constructed graphs

A template is instantiated once for each solution. Its blank nodes become new
ones, which the instances for one solution share. A new blank node is made when
a triple first needs it, and stays even if the triple has no instance then.
-/

namespace SparqlAlgebra

/-- The triples with variables that a graph is constructed from. Blank nodes in
it are terms. -/
abbrev Template := List TriplePattern

/-- The blank nodes that are made for a solution, one after the other. -/
abbrev Supply := Nat → BlankNode

/-- Blank nodes of a template with those made for them, the latest first. -/
abbrev NewBlanks := List (BlankNode × BlankNode)

/-- What is computed for a solution while blank nodes are made, if anything. -/
abbrev Instantiation (α : Type) := OptionT (StateM NewBlanks) α

/-- The blank node for one of the template, which is made at its first use. -/
def NewBlanks.use (supply : Supply) (node : BlankNode) :
    StateM NewBlanks BlankNode :=
  modifyGet fun made =>
    match made.lookup node with
    | some new => (new, made)
    | none => (supply made.length, (node, supply made.length) :: made)

/-- The value if there is one. No blank node is made. -/
def Instantiation.ofOption {α : Type} (value : Option α) : Instantiation α :=
  .mk (pure value)

/-- The term at a position for a solution; absent if it is unbound. -/
def Position.instantiate (supply : Supply) (b : Binding) :
    Position → Instantiation Term
  | .term (.blank node) => return .blank (← NewBlanks.use supply node)
  | .term t => return t
  | .var v => .ofOption (b.get? v)

/-- The triple for a solution. There is none if a variable is unbound, the
subject is a literal or the predicate is no IRI. -/
def TriplePattern.instantiate (supply : Supply) (b : Binding)
    (p : TriplePattern) : Instantiation Triple := do
  let subject ← .ofOption (← p.subject.instantiate supply b).toResource?
  let .iri predicate ← p.predicate.instantiate supply b | failure
  return ⟨subject, predicate, ← p.object.instantiate supply b⟩

namespace Template

/-- The triples for a solution, in the order of the template. -/
def fill (supply : Supply) (b : Binding) :
    Template → StateM NewBlanks (List Triple)
  | [] => return []
  | p :: rest => do
    let triple ← (p.instantiate supply b).run
    return triple.toList ++ (← fill supply b rest)

/-- The triples for a solution. No blank node is made yet. -/
def instantiate (t : Template) (supply : Supply) (b : Binding) : List Triple :=
  ((t.fill supply b).run []).1

/-- The triples for each of the solutions. -/
def instances (t : Template) (supply : Nat → Supply) (rows : List Binding) :
    List Triple :=
  rows.zipIdx.flatMap fun (b, i) => t.instantiate (supply i) b

/-- The triples for all solutions, each of them once. -/
def construct (t : Template) (supply : Nat → Supply) (s : Solutions) :
    List Triple :=
  dedup (t.instances supply s.rows)

end Template

/-- The blank nodes that are made for the solution with a number of a
construction with a number. -/
def constructedBlank (construction solution : Nat) : Supply := fun k =>
  .fresh ("c" ++ toString construction ++ "s" ++ toString solution ++ "x" ++
    toString k)

end SparqlAlgebra
