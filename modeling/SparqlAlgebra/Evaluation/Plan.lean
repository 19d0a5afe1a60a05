import SparqlAlgebra.Evaluation.Expressions
import SparqlAlgebra.Evaluation.Paths
import SparqlAlgebra.Solutions.Join
import SparqlAlgebra.Solutions.Operations

/-!
# Plans

A plan yields the solutions of a node. It may be told how many solutions are
needed, its demand; it may then stop once it knows that many, and what it
returns is the beginning of what it would return otherwise. Operators whose
solutions follow the order of their input ask the input for more and more
solutions until there are enough.
-/

namespace SparqlAlgebra

open EvaluationMonad

variable {M : Type → Type} [EvaluationMonad M]

/-- The relation that a path pattern looks for. -/
def PathSearch.relation : PathSearch → Relation
  | .zeroLength => Relation.zeroLength
  | .zeroOrMore p => (Path.zeroOrMore p).relation
  | .oneOrMore p => (Path.oneOrMore p).relation
  | .negatedSet forward backward => (Path.negatedSet forward backward).relation

/-- How many solutions are needed; all of them if absent. -/
abbrev Demand := Option Nat

/-- The evaluation of a node for a demand. -/
abbrev Plan (M : Type → Type := Eval) := Demand → M Solutions

namespace Plan

/-! ## Observation -/

/-- The evaluation of the input with a number. -/
def input (i : Nat) (plan : Plan M) : Plan M := fun demand =>
  atPlace (·.map (· ++ [i])) (plan demand)

/-- The evaluation of the pattern of an expression. -/
def inExpression (plan : Plan M) : Plan M := fun demand =>
  atPlace (fun _ => none) (plan demand)

/-- The evaluation of a node with a name: the clock is looked at, and observers
are told before it and after it, if it succeeds. -/
def observed (name : String) (plan : Plan M) : Plan M := fun demand => do
  act Eval.checkTime
  let c ← act read
  act (Eval.record (.before name c.depth))
  let result ← deeper (plan demand)
  act (Eval.record (.after name c.depth c.place result))
  return result

/-! ## Growing demand -/

/-- Twice a demand, at most the largest number. -/
def double (n : Nat) : Nat := min (2 * n) maxCount

theorem lt_double {n : Nat} (h : 0 < n) (k : n < maxCount) : n < double n := by
  unfold double
  omega

/-- Asks `source` for `asked` solutions, and for twice as many each time it
returns that many and `combine` does not yet make `wanted` solutions of them.
`combine` keeps what it needs again in a memory. -/
def grow {σ : Type} (source : Plan M) (wanted : Nat)
    (combine : σ → Solutions → M (Solutions × σ)) (asked : Nat)
    (memory : σ) : M Solutions := do
  let found ← source (some asked)
  let (output, memory) ← combine memory found
  if found.isSingleton || found.size < asked || wanted ≤ output.size then
    return output
  else if _h : 0 < asked ∧ asked < maxCount then
    grow source wanted combine (double asked) memory
  else return output
termination_by maxCount - asked
decreasing_by
  have := lt_double _h.1 _h.2
  omega

/-- Combines the solutions of the source, as many of them as it takes to meet
the demand. -/
def fromPrefix {σ : Type} (source : Plan M) (memory : σ)
    (combine : σ → Solutions → M (Solutions × σ)) : Plan M
  | none => do
    let found ← source none
    return (← combine memory found).1
  | some wanted => grow source wanted combine (max wanted 1) memory

/-- Combines solutions without a memory. -/
def mapPrefix (source : Plan M) (combine : Solutions → M Solutions) : Plan M :=
  fromPrefix source () fun _ found => return (← combine found, ())

/-! ## Seeds -/

/-- Joins solutions with the seed. -/
def joinSeed (s : Solutions) : Eval Solutions := do
  match (← read).seed with
  | none => return s
  | some b => return if b.isEmpty then s else s.join (.ofBinding b)

/-- Changes the seed for a plan. -/
def mapSeed (f : Binding → Binding) (plan : Plan M) : Plan M := fun demand =>
  EvaluationMonad.mapSeed (·.map f) (plan demand)

/-- Whether a pattern that starts from a binding has a solution that is
compatible with it; `asked` solutions are looked at first. -/
def hasMatchFrom (pattern : Plan M) (b : Binding) (asked : Nat) : M Bool := do
  let found ← pattern (some asked)
  if found.isSingleton || found.rows.any (·.isCompatible b) then return true
  else if _h : asked ≤ found.size ∧ 0 < asked ∧ asked < maxCount then
    hasMatchFrom pattern b (double asked)
  else return false
termination_by maxCount - asked
decreasing_by
  have := lt_double _h.2.1 _h.2.2
  omega

/-- Whether a pattern has a solution that is compatible with a binding. -/
def hasMatch (pattern : Plan M) (b : Binding) : M Bool :=
  withSeed (some b) (hasMatchFrom pattern b 1)

/-! ## Binary operators -/

/-- The solutions in the memory, or all solutions of a plan. -/
def remembered (plan : Plan M) : Option Solutions → M Solutions
  | some s => pure s
  | none => plan none

/-- Combines the left solutions with all right solutions, which are computed
once and only if there is a left solution. -/
def withRight (left right : Plan M)
    (combine : Solutions → Solutions → M Solutions) : Plan M :=
  fromPrefix left none fun memory l => do
    if l.isEmpty then return (.null, memory)
    let r ← remembered right memory
    return (← combine l r, some r)

def join (left right : Plan M) : Plan M :=
  withRight left right fun l r => return l.join r

/-- A left join; the condition is about combined solutions. -/
def leftJoin (left right : Plan M) (condition : Binding → M Bool) : Plan M :=
  withRight left right fun l r => l.leftJoinM r condition

/-- The difference; the right side does not start from the seed. -/
def minus (left right : Plan M) : Plan M :=
  withRight left (fun demand => withSeed none (right demand)) fun l r =>
    return l.minus r

/-- The union. The right side has to yield what the left side does not; if that
is nothing, only its variables count. -/
def union (left right : Plan M) (rightVariables : List Var) : Plan M :=
  fun demand => do
    let l ← left demand
    let remaining := demand.map (· - l.size)
    if remaining = some 0 && !l.isSingleton then
      return l.extendVariables rightVariables
    else return l.union (← right remaining)

/-- The left solutions with a match, or those without. -/
def existsJoin (left right : Plan M) (negated : Bool) : Plan M :=
  mapPrefix left fun l =>
    l.retainM fun b => return (← hasMatch right b) != negated

/-! ## Unary operators -/

def filter (inner : Plan M) (condition : Binding → M Bool) : Plan M :=
  mapPrefix inner fun s => s.retainM condition

/-- Binds a variable in every row, none of which may bind it already. -/
def assignRows (v : Var) (assignment : Assignment M) :
    List Binding → M (List Binding)
  | [] => pure []
  | b :: rest => do
    if b.contains v then act (Eval.fail (.variableAlreadyBound v))
    else
      let value ← assignment b
      let row := match value with
        | some t => b.insert v t
        | none => b
      return row :: (← assignRows v assignment rest)

/-- Adds a variable. The inner solutions do not start from its value. -/
def extend (inner : Plan M) (v : Var) (assignment : Assignment M) : Plan M :=
  fun demand => do
    let s ← mapSeed (·.erase v) inner demand
    if s.isSingleton then return s.extendVariables [v]
    else
      return .ofRows (mergeVariables s.vars [v])
        (← assignRows v assignment s.rows)

def distinct (inner : Plan M) : Plan M := mapPrefix inner fun s => return s.distinct

/-- Restricts solutions to variables, and the seed of the inner solutions. -/
def project (inner : Plan M) (vs : List Var) : Plan M := fun demand => do
  let s ← mapSeed (·.project vs) inner demand
  act (joinSeed (s.project vs))

def slice (inner : Plan M) (offset : Nat) (limit : Option Nat) : Plan M :=
  fun demand => do
    let needed := demand.map fun n =>
      addCounts offset (match limit with
        | some m => min m n
        | none => n)
    return (← inner needed).slice offset limit

def limit (inner : Plan M) (count : Nat) : Plan M := fun demand => do
  let needed := match demand with
    | some n => min n count
    | none => count
  return (← inner (some needed)).truncate count

/-- One empty solution if there is a solution. -/
def ask (inner : Plan M) : Plan M := fun _ => do
  if (← act read).environment.isDryRun then return .identity
  else return if (← inner (some 1)).isEmpty then .null else .identity

/-! ## Graphs -/

/-- Gives the variable of a graph its name in a row, unless it has another
value. -/
def bindName (v : Var) (name : Term) (b : Binding) : Option Binding :=
  match b.get? v with
  | none => some (b.insert v name)
  | some t => if t = name then some b else none

/-- The rows of the graphs one after the other, until there are enough. -/
def overGraphs (inner : Plan M) (v : Var) (demand : Demand) :
    List Resource → List Binding → M (List Binding)
  | [], rows => pure rows
  | g :: rest, rows => do
    let s ← withGraph (.named g) (inner (demand.map (· - rows.length)))
    let rows := rows ++ s.rows.filterMap (bindName v g.toTerm)
    match demand with
    | some n =>
      if n ≤ rows.length then pure rows else overGraphs inner v demand rest rows
    | none => overGraphs inner v demand rest rows

/-- The graphs that a variable ranges over: the one that the seed names, or all
that are available. -/
def graphsOf (v : Var) : Eval (List Resource) := do
  let c ← read
  match c.seed.bind (·.get? v) with
  | none => Eval.ofReading c.view.namedGraphs
  | some t =>
    match t.toResource? with
    | none => return []
    | some g =>
      return if ← Eval.ofReading (c.view.isAvailable g) then [g] else []

/-- Evaluates with a named graph as the active one. -/
def graph (inner : Plan M) (name : NameRef) (innerVariables : List Var) : Plan M :=
  fun demand => do
    let c ← act read
    match name with
    | .iri i =>
      let found ← if c.environment.isDryRun then pure true
        else act (Eval.ofReading (c.view.isAvailable (.iri i)))
      if found then withGraph (.named (.iri i)) (inner demand)
      else return .null
    | .var v =>
      let vars := mergeVariables innerVariables [v]
      if c.environment.isDryRun then return .singleton vars
      else
        let graphs ← act (graphsOf v)
        return .ofRows vars (← overGraphs inner v demand graphs [])

/-! ## Leaves -/

/-- A plan that enters no scope. -/
def ofActions (plan : Plan) : Plan M := fun demand => act (plan demand)

/-- A leaf that reads data, unless only its variables are asked for. -/
def leaf (vars : List Var) (evaluate : Eval Solutions) : Plan :=
  fun _ => do
    if (← read).environment.isDryRun then return .singleton vars
    else evaluate

/-- The binding of a row of given values. -/
def valuesRow (vs : List Var) (row : List (Option Term)) : Binding :=
  .ofEntries ((vs.zip row).filterMap fun (v, t) => t.map (v, ·))

def values (vs : List Var) (rows : List (List (Option Term))) : Plan :=
  leaf vs (joinSeed (.ofRows vs (rows.map (valuesRow vs))))

/-- A path pattern, with the values of the seed in its positions. -/
def pathSearch (s : Position) (search : PathSearch) (o : Position) : Plan :=
  leaf (Position.vars [s, o]) do
    let seed := (← read).seed.getD Binding.empty
    let s := s.substitute seed
    let o := o.substitute seed
    joinSeed (.ofRows (Position.vars [s, o]) (← search.relation s o))

/-- The name of a service; a variable has its value in the seed. -/
def serviceName : NameRef → Eval Iri
  | .iri i => pure i
  | .var v => do
    match (← read).seed.bind (·.get? v) with
    | some (.iri i) => pure i
    | _ => Eval.fail .unboundService

/-- A call of a service. A silent call that fails has no solutions. -/
def service (name : NameRef) (vs : List Var) (silent : Bool)
    (pattern : Query.Pattern) : Plan :=
  leaf vs do
    let name ← serviceName name
    let environment := (← read).environment
    match environment.services with
    | none =>
      if silent then return .null else Eval.fail (.unsupportedService name)
    | some handler =>
      Eval.record (.serviceCall name environment.base)
      match handler ⟨name, pattern⟩ environment.base with
      | .ok s => joinSeed s
      | .error text =>
        if silent then return .null else Eval.fail (.service text)

end Plan

end SparqlAlgebra
