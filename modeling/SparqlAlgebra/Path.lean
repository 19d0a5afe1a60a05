import SparqlAlgebra.Term

/-!
# Property paths

Paths relate pairs of nodes of a graph by the edges between them.
-/

namespace SparqlAlgebra

/-- A property path. -/
inductive Path where
  /-- An edge with this predicate, followed backward if `inverse` is set. -/
  | property (predicate : Iri) (inverse : Bool)
  /-- The inner path from its end to its start. -/
  | inverse (inner : Path)
  | sequence (first second : Path)
  | alternative (first second : Path)
  | zeroOrOne (inner : Path)
  | zeroOrMore (inner : Path)
  | oneOrMore (inner : Path)
  /-- Edges whose predicate is not in the set of their direction. A direction
  with an empty set is not followed at all. -/
  | negatedSet (forward backward : List Iri)
  /-- The inner path `n` times; no times relates every node to itself. -/
  | fixedLength (inner : Path) (n : Nat)
deriving DecidableEq, Inhabited

namespace Path

/-- The path that relates the same pairs with swapped ends. -/
def inverted : Path → Path
  | property p backward => property p !backward
  | inverse inner => inner
  | negatedSet forward backward => negatedSet backward forward
  | p => inverse p

/-- The predicate of a path that is a single forward edge. -/
def forwardProperty? : Path → Option Iri
  | property p false => some p
  | _ => none

/-- Whether a path can relate a node to itself without an edge. -/
def matchesZeroLength : Path → Bool
  | property _ _ | negatedSet _ _ | oneOrMore _ => false
  | zeroOrOne _ | zeroOrMore _ => true
  | inverse inner => inner.matchesZeroLength
  | sequence p q => p.matchesZeroLength && q.matchesZeroLength
  | alternative p q => p.matchesZeroLength || q.matchesZeroLength
  | fixedLength inner n => n = 0 || inner.matchesZeroLength

/-- The predicates of a negated set, those of backward edges with a caret. -/
def renderNegatedSet (forward backward : List Iri) : String :=
  "!(" ++ joinTexts " | "
    (forward.map Iri.render ++ backward.map fun p => "^" ++ p.render) ++ ")"

def render : Path → String
  | property p false => p.render
  | property p true => "^" ++ p.render
  | inverse inner => "^(" ++ inner.render ++ ")"
  | sequence p q => "(" ++ p.render ++ " / " ++ q.render ++ ")"
  | alternative p q => "(" ++ p.render ++ " | " ++ q.render ++ ")"
  | zeroOrOne inner => "(" ++ inner.render ++ ")?"
  | zeroOrMore inner => "(" ++ inner.render ++ ")*"
  | oneOrMore inner => "(" ++ inner.render ++ ")+"
  | negatedSet forward backward => renderNegatedSet forward backward
  | fixedLength inner n =>
    "(" ++ inner.render ++ ")\x7b" ++ toString n ++ "\x7d"

end Path

end SparqlAlgebra
