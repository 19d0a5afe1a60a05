import SparqlAlgebra.Evaluation.State

/-!
# Statistics of an evaluation

How often each node of a tree was evaluated, and how many solutions it had in
all. Patterns of expressions do not count.
-/

namespace SparqlAlgebra

/-- What is known about the evaluations of a node. -/
structure NodeStatistics where
  name : String
  depth : Nat
  evaluations : Nat
  solutions : Nat
deriving DecidableEq, Inhabited

/-- A line about a node. The time that it took is not measured. -/
def NodeStatistics.render (s : NodeStatistics) : String :=
  String.ofList (List.replicate (2 * s.depth) ' ') ++ s.name ++
    ": evaluations=" ++ toString s.evaluations ++ ", solutions=" ++
    toString s.solutions ++ ", elapsed=0ns"

namespace NodeStatistics

/-- The place of a node whose evaluation has succeeded, with the statistics of
that evaluation. -/
def ofEvent? : Event → Option (List Nat × NodeStatistics)
  | .after name depth (some place) result =>
    some (place, ⟨name, depth, 1, result.size⟩)
  | _ => none

/-- Adds the counts of a further evaluation of the same node. -/
def add (s t : NodeStatistics) : NodeStatistics :=
  { s with
    evaluations := s.evaluations + t.evaluations
    solutions := s.solutions + t.solutions }

/-- Adds the statistics of an evaluation to those of the node at its place. The
places are sorted lexicographically, so that each node stands before its inputs
and these stand in their order. -/
def addAt (place : List Nat) (s : NodeStatistics) :
    List (List Nat × NodeStatistics) → List (List Nat × NodeStatistics)
  | [] => [(place, s)]
  | (p, t) :: rest =>
    if p = place then (p, t.add s) :: rest
    else if place < p then (place, s) :: (p, t) :: rest
    else (p, t) :: addAt place s rest

/-- The statistics of the nodes that were evaluated, from what observers were
told, the latest first. -/
def ofLog (log : List Event) : List NodeStatistics :=
  let nodes := (log.filterMap ofEvent?).foldr
    (fun (place, s) found => addAt place s found) []
  nodes.map (·.2)

end NodeStatistics

end SparqlAlgebra
