import SparqlAlgebra.Evaluation.State

/-!
# Scopes

A tree is evaluated by actions, which read and count, and within scopes: under an active
graph, from a seed, at a depth and at a place. What evaluates trees is written for every
monad that has these. There are two of them. In `Eval` a scope is a changed context for
what is inside it. In `Stateful` the context is part of the state of an evaluator: it is
changed when a scope is entered, and put back when the scope is left, with a result or
with an error.
-/

namespace SparqlAlgebra

/-- A monad that trees can be evaluated in. -/
class EvaluationMonad (M : Type → Type) extends Monad M where
  /-- An action that enters no scope. -/
  act {α : Type} (x : Eval α) : M α
  /-- The outcome as a value, if its error is absorbable. All other errors stay errors. -/
  absorb {α : Type} (x : M α) : M (Except QueryError α)
  /-- Starts from another seed. -/
  mapSeed {α : Type} (f : Option Binding → Option Binding) (x : M α) : M α
  /-- Makes a graph the active one. -/
  withGraph {α : Type} (g : ActiveGraph) (x : M α) : M α
  /-- Goes into a node. -/
  deeper {α : Type} (x : M α) : M α
  /-- Moves to another place of the tree. -/
  atPlace {α : Type} (f : Option (List Nat) → Option (List Nat)) (x : M α) : M α

namespace EvaluationMonad

variable {M : Type → Type} [EvaluationMonad M] {α : Type}

/-- Evaluates with a seed. -/
def withSeed (seed : Option Binding) (x : M α) : M α := mapSeed (fun _ => seed) x

end EvaluationMonad

/-! ## Scopes as changed contexts -/

namespace Eval

variable {α : Type}

instance : EvaluationMonad Eval where
  act x := x
  absorb := absorb
  mapSeed f := within fun c => { c with seed := f c.seed }
  withGraph := withGraph
  deeper := within fun c => { c with depth := c.depth + 1 }
  atPlace f := within fun c => { c with place := f c.place }

theorem act_eval (x : Eval α) : EvaluationMonad.act x = x := rfl

theorem absorb_eval (x : Eval α) : EvaluationMonad.absorb x = x.absorb := rfl

theorem withSeed_eval (seed : Option Binding) (x : Eval α) :
    EvaluationMonad.withSeed seed x = x.withSeed seed := rfl

theorem deeper_eval (x : Eval α) :
    EvaluationMonad.deeper x = x.within fun c => { c with depth := c.depth + 1 } := rfl

end Eval

/-! ## Scopes as changes of an evaluator -/

/-- What evaluates trees: the scopes that it is in, and what it has counted so far. -/
structure Evaluator where
  context : Context
  progress : Progress

namespace Evaluator

/-- The evaluator of a query that has not evaluated anything. -/
def fresh (v : DatasetView) (e : Environment) : Evaluator := ⟨.initial v e, .initial e⟩

def pushGraph (s : Evaluator) (g : ActiveGraph) : Evaluator :=
  { s with context := { s.context with view := s.context.view.enter g } }

def popGraph (s : Evaluator) : Evaluator :=
  { s with context := { s.context with view := s.context.view.leave } }

def setSeed (s : Evaluator) (seed : Option Binding) : Evaluator :=
  { s with context := { s.context with seed := seed } }

def setDepth (s : Evaluator) (depth : Nat) : Evaluator :=
  { s with context := { s.context with depth := depth } }

def setPlace (s : Evaluator) (place : Option (List Nat)) : Evaluator :=
  { s with context := { s.context with place := place } }

end Evaluator

/-- What changes an evaluator. The changes are kept if it fails. -/
abbrev Stateful := ExceptT QueryError (StateM Evaluator)

namespace Stateful

variable {α : Type}

/-- The result, and the evaluator afterwards. -/
def runOn (x : Stateful α) (s : Evaluator) : Except QueryError α × Evaluator := x.run.run s

/-- An action reads the context of the evaluator, and counts. -/
def act (x : Eval α) : Stateful α := ExceptT.mk fun s =>
  let (result, progress) := x.runFrom s.context s.progress
  (result, { s with progress := progress })

def absorb (x : Stateful α) : Stateful (Except QueryError α) := ExceptT.mk do
  match ← x.run with
  | .ok a => return .ok (.ok a)
  | .error e => return if e.isAbsorbable then .ok (.error e) else .error e

/-- Changes the evaluator before `x` and behind it, also if `x` fails. -/
def between (enter leave : Evaluator → Evaluator) (x : Stateful α) : Stateful α :=
  ExceptT.mk do
    modify enter
    let result ← x.run
    modify leave
    return result

/-- The seed is replaced, and put back. -/
def mapSeed (f : Option Binding → Option Binding) (x : Stateful α) : Stateful α := do
  let seed := (← get).context.seed
  between (·.setSeed (f seed)) (·.setSeed seed) x

/-- A graph is pushed, and popped. -/
def withGraph (g : ActiveGraph) (x : Stateful α) : Stateful α :=
  between (·.pushGraph g) (·.popGraph) x

/-- The depth is counted up, and down. -/
def deeper (x : Stateful α) : Stateful α :=
  between (fun s => s.setDepth (s.context.depth + 1)) (fun s => s.setDepth (s.context.depth - 1)) x

/-- The place is replaced, and put back. -/
def atPlace (f : Option (List Nat) → Option (List Nat)) (x : Stateful α) : Stateful α := do
  let place := (← get).context.place
  between (·.setPlace (f place)) (·.setPlace place) x

instance : EvaluationMonad Stateful where
  act := act
  absorb := absorb
  mapSeed := mapSeed
  withGraph := withGraph
  deeper := deeper
  atPlace := atPlace

end Stateful

end SparqlAlgebra
