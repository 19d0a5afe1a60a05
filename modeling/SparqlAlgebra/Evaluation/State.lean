import SparqlAlgebra.Dataset.View
import SparqlAlgebra.Function.Registry
import SparqlAlgebra.Number.Bounded
import SparqlAlgebra.Query
import SparqlAlgebra.Solutions

/-!
# The state of an evaluation

Evaluation reads a context, may fail, and counts as it goes on: the names it
gave to solutions and variables, the work until the next look at the clock, and
what observers are told. The counts survive a failure.
-/

namespace SparqlAlgebra

/-- A call of a service: its name, with the pattern as it is written in the query. -/
structure ServiceCall extends Iri where
  pattern : Query.Pattern

/-- What a service answers to a call, given the base IRI: solutions, or the text of a
failure. -/
abbrev ServiceHandler := ServiceCall → Option String → Except String Solutions

/-- What an evaluation is given besides the dataset. -/
structure Environment where
  functions : FunctionRegistry
  services : Option ServiceHandler
  /-- The IRI that is passed to services. -/
  base : Option String
  /-- Whether the time allowed for the query is over. -/
  timedOut : Bool
  /-- The number of units of work between two looks at the clock. -/
  checkInterval : Nat
  queryId : Nat
  /-- Whether only variables are computed and no data is read. -/
  isDryRun : Bool

/-- What is fixed while a node is evaluated. -/
structure Context where
  view : DatasetView
  environment : Environment
  /-- The solution that the patterns inside an expression start from. -/
  seed : Option Binding
  /-- The number of nodes that are being evaluated around this one. -/
  depth : Nat
  /-- The way from the root of the tree, by the numbers of the inputs; absent
  within the patterns of expressions. -/
  place : Option (List Nat)

/-- The context of the root of a tree. -/
def Context.initial (view : DatasetView) (environment : Environment) :
    Context :=
  ⟨view, environment, none, 0, some []⟩

/-- What an observer is told. -/
inductive Event where
  | before (name : String) (depth : Nat)
  | after (name : String) (depth : Nat) (place : Option (List Nat))
    (result : Solutions)
  | serviceCall (name : Iri) (base : Option String)

/-- What an evaluation has counted so far. -/
structure Progress where
  /-- How many solutions were given a number. -/
  solutions : Nat
  /-- How many variables were made. -/
  vars : Nat
  /-- How many function calls were made. -/
  calls : Nat
  /-- The units of work until the next look at the clock. -/
  countdown : Nat
  /-- What observers were told, the latest first. -/
  log : List Event

/-- The interval that is counted down; it is not zero. -/
def Environment.interval (e : Environment) : Nat := max e.checkInterval 1

/-- The progress of an evaluation that has not begun. -/
def Progress.initial (e : Environment) : Progress := ⟨0, 0, 0, e.interval, []⟩

/-- An evaluation. -/
abbrev Eval := ReaderT Context (ExceptT QueryError (StateM Progress))

namespace Eval

variable {α : Type}

/-- Evaluates within a context from some progress on. -/
def runFrom (x : Eval α) (c : Context) (p : Progress) :
    Except QueryError α × Progress :=
  (ReaderT.run x c).run.run p

def fail (e : QueryError) : Eval α := throw e

/-- Evaluates in a changed context. -/
def within (change : Context → Context) (x : Eval α) : Eval α :=
  fun c => x (change c)

/-- The outcome of an evaluation as a value, if its error is absorbable. All
other errors stay errors. -/
def absorb (x : Eval α) : Eval (Except QueryError α) := fun c =>
  ExceptT.mk do
    match ← (x c).run with
    | .ok a => return .ok (.ok a)
    | .error e => return if e.isAbsorbable then .ok (.error e) else .error e

/-- The value of a function of terms; it fails on arguments that it rejects. -/
def ofOption : Option α → Eval α
  | some a => pure a
  | none => fail .invalidArgument

/-! ## Time -/

/-- Fails if the time is over. -/
def checkTime : Eval Unit := do
  if (← read).environment.timedOut then fail .timeout

/-- Counts a unit of work and looks at the clock once per interval. -/
def tick : Eval Unit := do
  let p ← get
  if p.countdown ≤ 1 then
    set { p with countdown := (← read).environment.interval }
    checkTime
  else set { p with countdown := p.countdown - 1 }

/-! ## Numbers and names -/

/-- A new number for a solution that an expression is evaluated for. -/
def newSolutionId : Eval Nat := do
  let p ← get
  set { p with solutions := p.solutions + 1 }
  return p.solutions + 1

/-- A new variable for the inner nodes of paths. -/
def freshVar : Eval Var := do
  let p ← get
  set { p with vars := p.vars + 1 }
  return ⟨"__path" ++ toString (p.vars + 1)⟩

/-- A new number for a function call. -/
def newCall : Eval Nat := do
  let p ← get
  set { p with calls := p.calls + 1 }
  return p.calls

/-- Tells observers. -/
def record (e : Event) : Eval Unit :=
  modify fun p => { p with log := e :: p.log }

/-! ## Reading -/

/-- The result of reading the dataset. -/
def ofReading : Except String α → Eval α
  | .ok a => pure a
  | .error text => fail (.storage text)

/-- The triples of the active graph that match a pattern. -/
def triples (subject : Option Term) (predicate : Option Iri)
    (object : Option Term) : Eval (List Triple) := do
  ofReading ((← read).view.triples subject predicate object)

/-- The nodes of the active graph. -/
def nodes : Eval (List Term) := do ofReading (← read).view.nodes

/-! ## Scopes -/

/-- Evaluates with a seed. -/
def withSeed (seed : Option Binding) (x : Eval α) : Eval α :=
  x.within fun c => { c with seed := seed }

/-- Evaluates with an active graph. -/
def withGraph (g : ActiveGraph) (x : Eval α) : Eval α :=
  x.within fun c => { c with view := c.view.enter g }

end Eval

end SparqlAlgebra
