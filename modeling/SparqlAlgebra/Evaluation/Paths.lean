import SparqlAlgebra.Evaluation.State
import SparqlAlgebra.Path
import SparqlAlgebra.Pattern

/-!
# Evaluating paths

The solutions of a path between two positions bind the variables among these.
Closures are searched breadth-first from each start, so that they end on cycles
and yield every pair of connected nodes once.
-/

namespace SparqlAlgebra

/-- What relates two positions: the bindings of their variables. -/
abbrev Relation := Position → Position → Eval (List Binding)

namespace Relation

/-! ## Edges -/

/-- Gives a position the value of a matched triple. It fails on another term,
or if the variable has another value. -/
def unifyPosition (p : Position) (value : Term) (b : Binding) :
    Option Binding :=
  match p with
  | .term t => if t = value then some b else none
  | .var v =>
    match b.get? v with
    | some u => if u = value then some b else none
    | none => some (b.insert v value)

/-- The binding of two positions to two terms. -/
def unify (subject object : Position) (s o : Term) : Option Binding :=
  (unifyPosition subject s Binding.empty).bind (unifyPosition object o)

/-- The bindings of the triples that a test accepts. Each triple is a unit of
work. -/
def bindingsOf (bind : Triple → Option Binding) :
    List Triple → Eval (List Binding)
  | [] => pure []
  | t :: rest => do
    Eval.tick
    let found ← bindingsOf bind rest
    return (bind t).toList ++ found

/-- The edges with a predicate. -/
def edges (predicate : Iri) : Relation := fun s o => do
  let triples ← Eval.triples s.toTerm? (some predicate) o.toTerm?
  bindingsOf (fun t => unify s o t.subject.toTerm t.object) triples

/-- A relation with swapped ends. -/
def swap (r : Relation) : Relation := fun s o => r o s

/-- The edges whose predicate is not listed; none at all if nothing is
listed. -/
def edgesOutside (excluded : List Iri) : Relation := fun s o =>
  if excluded.isEmpty then pure []
  else do
    let triples ← Eval.triples s.toTerm? none o.toTerm?
    bindingsOf (fun t =>
      if excluded.contains t.predicate then none
      else unify s o t.subject.toTerm t.object) triples

/-- The edges backward whose predicate is not listed. -/
def backEdgesOutside (excluded : List Iri) : Relation := fun s o =>
  if excluded.isEmpty then pure []
  else do
    let triples ← Eval.triples o.toTerm? none s.toTerm?
    bindingsOf (fun t =>
      if excluded.contains t.predicate then none
      else unify s o t.object t.subject.toTerm) triples

/-! ## Combinations -/

/-- The pairs of both relations, those of the first one first. -/
def either (r q : Relation) : Relation := fun s o =>
  return (← r s o) ++ (← q s o)

/-- The continuations of one solution of the first half of a sequence. -/
def continueWith (q : Relation) (middle : Var) (s o : Position)
    (left : Binding) : Eval (List Binding) :=
  match left.get? middle with
  | none => pure []
  | some node => do
    let found ← q (.term node) (o.substitute left)
    return (found.filterMap left.merge?).map
      (·.project (Position.vars [s, o]))

/-- The continuations of a list of solutions. -/
def continueAll (f : Binding → Eval (List Binding)) :
    List Binding → Eval (List Binding)
  | [] => pure []
  | b :: rest => do
    let found ← f b
    return found ++ (← continueAll f rest)

/-- A pair of the first relation followed by a pair of the second. -/
def sequence (r q : Relation) : Relation := fun s o => do
  let middle ← Eval.freshVar
  let lefts ← r s (.var middle)
  continueAll (continueWith q middle s o) lefts

/-- Every node with itself. A fixed end is related to itself also if it is no
node of the graph. -/
def zeroLength : Relation := fun s o =>
  match s, o with
  | .term t, .term u => pure (if t = u then [Binding.empty] else [])
  | .term t, .var v | .var v, .term t => pure [Binding.empty.insert v t]
  | .var v, .var w => do
    let nodes ← Eval.nodes
    return nodes.map fun t => (Binding.empty.insert v t).insert w t

/-- A relation, and every node with itself; no pair twice. -/
def reflexive (r : Relation) : Relation := fun s o => do
  let same ← zeroLength s o
  return dedup (same ++ (← r s o))

/-- A relation `n + 1` times in a row. -/
def power (r : Relation) : Nat → Relation
  | 0 => r
  | n + 1 => sequence (power r n) r

/-- A relation `n` times in a row. -/
def times (r : Relation) : Nat → Relation
  | 0 => zeroLength
  | n + 1 => power r n

/-! ## Closures -/

/-- The distinct values of a variable. -/
def valuesOf (v : Var) (bs : List Binding) : List Term :=
  dedup (bs.filterMap (·.get? v))

/-- Searches from the terms in the queue. `reached` holds the terms found so
far in the order of their discovery; every one of them enters the queue once,
and so may the start. -/
def search (step : Term → Eval (List Term)) :
    Nat → List Term → List Term → Eval (List Term)
  | _, [], reached => pure reached
  | 0, _, reached => pure reached
  | fuel + 1, t :: queue, reached => do
    Eval.tick
    let next ← step t
    let new := next.filter (!reached.contains ·)
    search step fuel (queue ++ new) (reached ++ new)

/-- The terms that are reached from a start in one or more steps, and the start
itself if `reflexive` is set. -/
def reachable (r : Relation) (start : Term) (reflexive : Bool) :
    Eval (List Term) := do
  let next ← Eval.freshVar
  let bound := (← read).view.nodeBound + 2
  search (fun t => return valuesOf next (← r (.term t) (.var next))) bound
    [start] (if reflexive then [start] else [])

/-- The nodes that a closure starts from. -/
def starts (r : Relation) (reflexive : Bool) : Eval (List Term) :=
  if reflexive then Eval.nodes
  else do
    let s ← Eval.freshVar
    let o ← Eval.freshVar
    return valuesOf s (← r (.var s) (.var o))

/-- The pairs of a start with what is reached from it. -/
def pairsFrom (v w : Var) (start : Term) (reached : List Term) :
    List Binding :=
  if v = w then
    if reached.contains start then [Binding.empty.insert v start] else []
  else reached.map fun t => (Binding.empty.insert v start).insert w t

/-- The pairs of all starts with what is reached from them. -/
def closureFrom (reach : Term → Eval (List Term)) (v w : Var) :
    List Term → Eval (List Binding)
  | [] => pure []
  | start :: rest => do
    let reached ← reach start
    return pairsFrom v w start reached ++ (← closureFrom reach v w rest)

/-- The closure of a relation; each pair of connected nodes once. -/
def closure (r : Relation) (reflexive : Bool) : Relation := fun s o =>
  match s, o with
  | .term start, .term stop => do
    let reached ← reachable r start reflexive
    return if reached.contains stop then [Binding.empty] else []
  | .term start, .var v => do
    let reached ← reachable r start reflexive
    return reached.map (Binding.empty.insert v ·)
  | .var v, .term stop => do
    let reached ← reachable (swap r) stop reflexive
    return reached.map (Binding.empty.insert v ·)
  | .var v, .var w => do
    closureFrom (fun t => reachable r t reflexive) v w (← starts r reflexive)

end Relation

namespace Path

/-- The pairs that a path relates. -/
def relation : Path → Relation
  | property p false => .edges p
  | property p true => .swap (.edges p)
  | inverse inner => .swap inner.relation
  | sequence p q => .sequence p.relation q.relation
  | alternative p q => .either p.relation q.relation
  | zeroOrOne inner => .reflexive inner.relation
  | zeroOrMore inner => .closure inner.relation true
  | oneOrMore inner => .closure inner.relation false
  | negatedSet forward backward =>
    .either (.edgesOutside forward) (.backEdgesOutside backward)
  | fixedLength inner n => .times inner.relation n

/-- The solutions of a path between two positions. -/
def solutions (path : Path) (s o : Position) : Eval Solutions := do
  return .ofRows (Position.vars [s, o]) (← path.relation s o)

end Path

end SparqlAlgebra
