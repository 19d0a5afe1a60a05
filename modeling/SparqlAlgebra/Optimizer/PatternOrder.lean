import SparqlAlgebra.Algebra.Variables
import SparqlAlgebra.Optimizer.Rule

/-!
# The order of patterns

Within a basic graph pattern, cheap patterns that share a variable with those
before them come first. Assignments and sub-queries stay where they are and
separate the others into segments that are ordered on their own. A filter comes
right behind the last pattern that binds one of its variables, or around the
whole pattern if one of its variables is bound nowhere in it.
-/

namespace SparqlAlgebra

/-- Costs of patterns that mention certain terms. -/
structure PatternWeights where
  weight? : Term → Option Nat

namespace PatternWeights

def none : PatternWeights := ⟨fun _ => .none⟩

/-- Gives a term a weight in place of the one it had. -/
def withWeight (w : PatternWeights) (t : Term) (n : Nat) : PatternWeights :=
  ⟨fun u => if u = t then some n else w.weight? u⟩

/-- The smallest weight of the terms of a pattern. -/
def ofPattern? (w : PatternWeights) (p : TriplePattern) : Option Nat :=
  ((p.positions.filterMap Position.toTerm?).filterMap w.weight?).min?

end PatternWeights

namespace PatternOrder

/-! ## Costs -/

/-- The estimated number of triples when the given positions are known. -/
def cardinality (subject predicate object : Bool) : Nat :=
  match subject, predicate, object with
  | true, true, true => 1
  | true, true, false => 10
  | true, false, true => 2
  | false, true, true => 10000
  | true, false, false => 100
  | false, false, false => 1000000000
  | false, true, false => 1000000
  | false, false, true => 100000

/-- Whether a position is known once some variables are bound. -/
def isKnown (bound : List Var) : Position → Bool
  | .term _ => true
  | .var v => bound.contains v

/-- The estimated cost of an element once some variables are bound. -/
def cost (w : PatternWeights) (bound : List Var) : Element → Nat
  | .triple p =>
    (w.ofPattern? p).getD <| cardinality (isKnown bound p.subject)
      (isKnown bound p.predicate) (isKnown bound p.object)
  | .path s _ o =>
    min (cardinality (isKnown bound s) true (isKnown bound o) * 10) maxCount
  | _ => maxCount

/-- Whether an element binds one of the given variables. -/
def bindsAny (e : Element) (vs : List Var) : Bool :=
  e.boundVariables.any (vs.contains ·)

/-! ## Segments -/

/-- Whether `e` comes before `f`: elements that share a bound variable come
before others, and cheaper elements before dearer ones. -/
def precedes (w : PatternWeights) (bound : List Var) (e f : Element) : Bool :=
  match bindsAny e bound, bindsAny f bound with
  | true, false => true
  | false, true => false
  | _, _ => cost w bound e ≤ cost w bound f

/-- Takes the first element that no other one strictly precedes out of a list
that begins with `e`. -/
def takeBest (w : PatternWeights) (bound : List Var) (e : Element) :
    List Element → Element × List Element
  | [] => (e, [])
  | f :: rest =>
    let (best, others) := takeBest w bound f rest
    if precedes w bound e best then (e, f :: rest) else (best, e :: others)

theorem length_takeBest (w : PatternWeights) (bound : List Var) (e : Element)
    (rest : List Element) :
    (takeBest w bound e rest).2.length = rest.length := by
  induction rest generalizing e with
  | nil => rfl
  | cons f rest ih =>
    simp only [takeBest]
    split
    · rfl
    · simp [ih]

/-- Orders a segment when some variables are bound before it. -/
def orderSegment (w : PatternWeights) (bound : List Var) :
    List Element → List Element
  | [] => []
  | e :: rest =>
    let next := takeBest w bound e rest
    next.1 :: orderSegment w (bound ++ next.1.boundVariables) next.2
termination_by segment => segment.length
decreasing_by
  simp only [List.length_cons]
  have := length_takeBest w bound e rest
  omega

/-- Whether an element may change its place within a segment. -/
def isMovable : Element → Bool
  | .triple _ | .path _ _ _ => true
  | _ => false

/-- Orders the segments of elements other than filters, when `segment` has been
read before them. -/
def orderSegments (w : PatternWeights) (bound : List Var)
    (segment : List Element) : List Element → List Element
  | [] => orderSegment w bound segment
  | e :: rest =>
    if isMovable e then orderSegments w bound (segment ++ [e]) rest
    else
      orderSegment w bound segment ++ e ::
        orderSegments w
          (bound ++ Element.boundByAll segment ++ e.boundVariables) [] rest

/-! ## Filters -/

/-- The condition of a filter. -/
def filterCondition? : Element → Option Expr
  | .filter e => some e
  | _ => none

/-- The number of elements up to the last one that binds one of the given
variables. -/
def lastBinder (vs : List Var) : List Element → Nat
  | [] => 0
  | e :: rest =>
    match lastBinder vs rest with
    | 0 => if bindsAny e vs then 1 else 0
    | n + 1 => n + 2

/-- Puts each placed condition behind as many elements as its number says;
`skipped` elements come before the list. -/
def insertFilters (placed : List (Nat × Expr)) (skipped : Nat) :
    List Element → List Element
  | [] => here
  | e :: rest => here ++ e :: insertFilters placed (skipped + 1) rest
where
  here : List Element :=
    (placed.filter fun p => p.1 = skipped).map fun p => .filter p.2

/-- Whether every variable of a condition is bound by some element. -/
def isProvided (elements : List Element) (e : Expr) : Bool :=
  e.vars.all ((Element.boundByAll elements).contains ·)

/-- Puts conditions among elements, or around them. -/
def placeFilters (elements : List Element) (conditions : List Expr) : Node :=
  let placed := (conditions.filter (isProvided elements)).map fun e =>
    (lastBinder e.vars elements, e)
  let around := conditions.filter fun e => !isProvided elements e
  around.foldl Node.filter (.bgp (insertFilters placed 0 elements))

/-- The basic graph pattern of elements in a better order. -/
def reorder (w : PatternWeights) (elements : List Element) : Node :=
  placeFilters
    (orderSegments w [] [] (elements.filter fun e => (filterCondition? e).isNone))
    (elements.filterMap filterCondition?)

/-- Orders the elements of every basic graph pattern. -/
def rule (w : PatternWeights) : OptimizerRule :=
  .bottomUp "bgp-reordering" fun
    | .bgp elements => reorder w elements
    | n => n

end PatternOrder

end SparqlAlgebra
