import SparqlAlgebra.Evaluation.Plan

/-!
# Evaluating basic graph patterns

The elements are matched one inside the other: each of them with the values
that those before it have bound. Matching starts from the seed and stops as
soon as there are enough solutions.
-/

namespace SparqlAlgebra

open EvaluationMonad

variable {M : Type → Type} [EvaluationMonad M]

/-- What matching an element does with a binding. -/
inductive Step (M : Type → Type := Eval) where
  /-- Goes on with each of some extensions. -/
  | extend (candidates : Binding → M (List Binding))
  /-- Goes on with a further variable, which must not be bound. -/
  | assign (target : Var) (value : Assignment M)
  /-- Goes on with each merge with a solution of a query. The query is
  evaluated when it is first reached, and not again. -/
  | subQuery (number : Nat) (query : Plan M)
  /-- Goes on if a condition holds. -/
  | filter (condition : Binding → M Bool)

namespace Step

/-! ## Candidates -/

/-- The value of the predicate of a pattern; `none` if it is no IRI. -/
def predicate? (p : Position) (b : Binding) : Option (Option Iri) :=
  match p.resolve b with
  | none => some none
  | some (.iri i) => some (some i)
  | some _ => none

/-- Binds the variable of a position, unless it has another value. -/
def bindPosition (p : Position) (value : Term) (b : Binding) :
    Option Binding :=
  match p with
  | .term _ => some b
  | .var v =>
    match b.get? v with
    | none => some (b.insert v value)
    | some t => if t = value then some b else none

/-- The extension of a binding by a triple that matches a pattern. -/
def bindTriple (p : TriplePattern) (b : Binding) (t : Triple) :
    Option Binding := do
  let b ← bindPosition p.subject t.subject.toTerm b
  let b ← bindPosition p.predicate (.iri t.predicate) b
  bindPosition p.object t.object b

/-- The extensions of a binding by the triples that match a pattern. -/
def matchTriple (p : TriplePattern) (b : Binding) : Eval (List Binding) :=
  match predicate? p.predicate b with
  | none => pure []
  | some predicate => do
    let triples ← Eval.triples (p.subject.resolve b) predicate
      (p.object.resolve b)
    return triples.filterMap (bindTriple p b)

/-- The extensions of a binding by the solutions of a path. -/
def matchPath (s : Position) (path : Path) (o : Position) (b : Binding) :
    Eval (List Binding) := do
  let found ← path.solutions (s.substitute b) (o.substitute b)
  return found.rows.filterMap b.merge?

end Step

/-- The solutions found so far, and those of sub-queries. -/
structure Matches where
  found : Array Binding
  queries : List (Nat × Solutions)

namespace Matches

def empty : Matches := ⟨#[], []⟩

/-- Whether there are as many solutions as needed. -/
def meets (m : Matches) : Demand → Bool
  | none => false
  | some n => n ≤ m.found.size

/-- Goes on with candidates one after the other until there are enough
solutions. -/
def overCandidates (demand : Demand) (next : Binding → Matches → M Matches) :
    List Binding → Matches → M Matches
  | [], m => pure m
  | b :: rest, m => do
    let m ← next b m
    if m.meets demand then return m else overCandidates demand next rest m

/-- The solutions of a sub-query, and the state that remembers them. -/
def solutionsOf (number : Nat) (query : Plan M) (m : Matches) :
    M (Solutions × Matches) :=
  match m.queries.lookup number with
  | some s => pure (s, m)
  | none => do
    let s ← query none
    return (s, { m with queries := (number, s) :: m.queries })

/-- Matches the remaining elements with a binding. Each element that is reached
is a unit of work. -/
def matchSteps (demand : Demand) : List (Step M) → Binding → Matches → M Matches
  | [], b, m => pure { m with found := m.found.push b }
  | step :: rest, b, m => do
    act Eval.tick
    match step with
    | .extend candidates =>
      overCandidates demand (matchSteps demand rest) (← candidates b) m
    | .assign v value =>
      if b.contains v then act (Eval.fail (.variableAlreadyBound v))
      else
        match ← value b with
        | some t => matchSteps demand rest (b.insert v t) m
        | none => matchSteps demand rest b m
    | .subQuery number query =>
      let (s, m) ← solutionsOf number query m
      overCandidates demand (matchSteps demand rest)
        (s.rows.filterMap b.merge?) m
    | .filter condition =>
      if ← condition b then matchSteps demand rest b m else return m

end Matches

/-- The solutions of the elements of a basic graph pattern. -/
def Plan.bgp (steps : List (Step M)) (vars : List Var) : Plan M :=
  fun demand => do
    let c ← act read
    let seed := c.seed.getD Binding.empty
    let vars := mergeVariables seed.vars vars
    if c.environment.isDryRun then return .singleton vars
    else
      let m ← Matches.matchSteps demand steps seed .empty
      return .ofRows vars m.found.toList

end SparqlAlgebra
