import SparqlAlgebra.Algebra.Render
import SparqlAlgebra.Evaluation
import SparqlAlgebra.Evaluation.Statistics
import SparqlAlgebra.Optimizer
import SparqlAlgebra.Query.Lowering
import SparqlAlgebra.Results
import SparqlAlgebra.Results.Construct
import SparqlAlgebra.Results.Description

/-!
# Answers to queries

A query is lowered to the algebra, optimized and evaluated, and its solutions
are turned into the result that its form asks for.
-/

namespace SparqlAlgebra

/-- What queries are asked of: a dataset with the functions, services and
operators that are known, and rules that come before those of a level. -/
structure Endpoint where
  dataset : Dataset
  functions : FunctionRegistry
  services : Option ServiceHandler
  operators : OperatorRegistry
  leadingRules : List OptimizerRule

/-- How a query is answered. -/
structure QueryOptions where
  level : OptimizationLevel
  weights : PatternWeights
  /-- Whether patterns are matched against the union of all graphs if the query
  names no dataset. -/
  unionOfAll : Bool
  /-- Whether the time allowed for the query is over. -/
  timedOut : Bool
  checkInterval : Nat
  collectStatistics : Bool

/-- How an answer came about. -/
structure Explanation where
  initialPlan : Node
  optimizedPlan : Node
  report : OptimizerReport
  /-- The evaluated nodes in pre-order, if they were asked for. -/
  statistics : Option (List NodeStatistics)

/-- An explanation as text. Times are not measured. -/
def Explanation.render (e : Explanation) : String :=
  let statistics := match e.statistics with
    | none => ""
    | some nodes => "Statistics:\n" ++
      String.join (nodes.map fun s => s.render ++ "\n")
  "Planning time: 0ns\nEvaluation time: 0ns\nInitial plan:\n" ++
    e.initialPlan.render ++ "Optimized plan:\n" ++ e.optimizedPlan.render ++
    e.report.render ++ statistics

/-- The result of a query with an explanation. -/
structure Answer where
  results : QueryResults
  explanation : Explanation

namespace QueryForm

/-- The result that a form makes of solutions. -/
def results (form : QueryForm) (s : Solutions) : Eval QueryResults :=
  match form with
  | .select => return .solutions s
  | .ask => return .boolean !s.isEmpty
  | .construct template =>
    return .graph (Template.construct template (constructedBlank 0) s)
  | .describe => do
    return .graph (← Eval.ofReading ((← read).view.describe s))

end QueryForm

/-- What evaluations are given at an endpoint. The number of a query is random; it is left
at zero. -/
def Endpoint.environment (e : Endpoint) (o : QueryOptions)
    (base : Option String) : Environment :=
  ⟨e.functions, e.services, base, o.timedOut, o.checkInterval, 0, false⟩

namespace AlgebraQuery

/-- Evaluates an optimized tree and makes the result of its solutions. -/
def evaluate (q : AlgebraQuery) (operators : OperatorRegistry)
    (plan : Node) : Eval QueryResults := do
  let s ← plan.plan operators none
  let results ← q.form.results s
  Eval.checkTime
  return results

/-- The answer to a query over the algebra, and what observers were told, the
latest first. -/
def answer (q : AlgebraQuery) (e : Endpoint) (o : QueryOptions) :
    Except QueryError Answer × List Event :=
  let rules := e.leadingRules ++ o.level.rules o.weights
  let prepared : Except QueryError (Node × OptimizerReport × DatasetView) := do
    let (plan, report) ← applyRules rules q.root .empty
    return (plan, report, ← DatasetView.ofQuery? e.dataset q.dataset o.unionOfAll)
  match prepared with
  | .error error => (.error error, [])
  | .ok (plan, report, view) =>
    let environment := e.environment o q.base
    let (outcome, progress) := (q.evaluate e.operators plan).runFrom
      (.initial view environment) (.initial environment)
    let statistics := if o.collectStatistics then
      some (NodeStatistics.ofLog progress.log) else none
    (outcome.map fun results => ⟨results, q.root, plan, report, statistics⟩,
      progress.log)

end AlgebraQuery

/-- The answer to a query, and what observers were told, the latest first. -/
def Query.answer (q : Query) (e : Endpoint) (o : QueryOptions) :
    Except QueryError Answer × List Event :=
  match q.lower with
  | .error error => (.error error, [])
  | .ok lowered => lowered.answer e o

end SparqlAlgebra
