import SparqlAlgebra.Algebra
import SparqlAlgebra.Evaluation.Scopes

/-!
# Evaluating expressions

What operators and functions compute for one solution. Errors of expressions
form a third truth value: a disjunction with a true side is true, and a
conjunction with a false side is false, whatever the other side is.
-/

namespace SparqlAlgebra

open EvaluationMonad

variable {M : Type → Type} [EvaluationMonad M]

/-- A solution that expressions are evaluated for, with its number. -/
structure Row where
  binding : Binding
  id : Nat

/-- What an expression computes: its value, and whether it counts as true. -/
structure Meaning (M : Type → Type := Eval) where
  value : Row → M Term
  test : Row → M Bool

namespace Meaning

/-- An expression that is given by its value. -/
def ofValue (value : Row → M Term) : Meaning M :=
  ⟨value, fun row => do act (Eval.ofOption (effectiveBooleanValue? (← value row)))⟩

/-- An expression that is given by its truth. -/
def ofTest (test : Row → M Bool) : Meaning M :=
  ⟨fun row => return boolTerm (← test row), test⟩

def constant (t : Term) : Meaning M := ofValue fun _ => pure t

def var (v : Var) : Meaning M := ofValue fun row =>
  match row.binding.get? v with
  | some t => pure t
  | none => act (Eval.fail (.unboundVariable v))

def bound (v : Var) : Meaning M := ofTest fun row => pure (row.binding.contains v)

/-! ## Truth values -/

def not (m : Meaning M) : Meaning M := ofTest fun row => return !(← m.test row)

def or (a b : Meaning M) : Meaning M := ofTest fun row => do
  match ← absorb (a.test row) with
  | .ok true => return true
  | .ok false => b.test row
  | .error e => if ← b.test row then return true else act (Eval.fail e)

def and (a b : Meaning M) : Meaning M := ofTest fun row => do
  match ← absorb (a.test row) with
  | .ok true => b.test row
  | .ok false => return false
  | .error e => if ← b.test row then act (Eval.fail e) else return false

/-! ## Comparisons -/

/-- A test of the values of two operands, which are evaluated in order. -/
def compareBy (f : Term → Term → Option Bool) (a b : Meaning M) : Meaning M :=
  ofTest fun row => do
    let x ← a.value row
    let y ← b.value row
    act (Eval.ofOption (f x y))

def equal : Meaning M → Meaning M → Meaning M := compareBy sparqlEquals?

def sameTerm : Meaning M → Meaning M → Meaning M :=
  compareBy fun x y => some (x = y)

/-- A test of the order of two values. -/
def ordered (f : Ordering → Bool) : Meaning M → Meaning M → Meaning M :=
  compareBy fun x y => (sparqlCompare? x y).map f

/-- Whether a value equals that of one of the candidates. If none is equal, the
last error counts. -/
def equalsAny (x : Term) (row : Row) :
    Option QueryError → List (Meaning M) → M Bool
  | none, [] => return false
  | some e, [] => act (Eval.fail e)
  | last, m :: rest => do
    let equal : M Bool := do
      act (Eval.ofOption (sparqlEquals? x (← m.value row)))
    match ← absorb equal with
    | .ok true => return true
    | .ok false => equalsAny x row last rest
    | .error e => equalsAny x row (some e) rest

def isIn (needle : Meaning M) (candidates : List (Meaning M)) : Meaning M :=
  ofTest fun row => do equalsAny (← needle.value row) row none candidates

/-! ## Arithmetic -/

/-- An operation on a number. -/
def numeric (f : Number → Option Number) (m : Meaning M) : Meaning M :=
  ofValue fun row => do
    let x ← act (Eval.ofOption (Number.ofTerm? (← m.value row)))
    return (← act (Eval.ofOption (f x))).toTerm

/-- An operation on two numbers. Both operands are evaluated before either of
them is read as a number. -/
def arithmetic (f : Number → Number → Option Number) (a b : Meaning M) :
    Meaning M :=
  ofValue fun row => do
    let s ← a.value row
    let t ← b.value row
    let x ← act (Eval.ofOption (Number.ofTerm? s))
    let y ← act (Eval.ofOption (Number.ofTerm? t))
    return (← act (Eval.ofOption (f x y))).toTerm

/-! ## Choices and calls -/

def cond (test yes no : Meaning M) : Meaning M := ofValue fun row => do
  if ← test.test row then yes.value row else no.value row

/-- The first value without an error. -/
def firstValue (row : Row) : List (Meaning M) → M Term
  | [] => act (Eval.fail (.expression "No argument of COALESCE has a value"))
  | m :: rest => do
    match ← absorb (m.value row) with
    | .ok t => return t
    | .error _ => firstValue row rest

def coalesce (args : List (Meaning M)) : Meaning M :=
  ofValue fun row => firstValue row args

/-- The values of a list of expressions. -/
def values (row : Row) : List (Meaning M) → M (List Term)
  | [] => pure []
  | m :: rest => return (← m.value row) :: (← values row rest)

/-- The error of a call of an unknown function. -/
def unknownFunction : FunctionName → QueryError
  | .custom name => .unknownFunction name
  | .builtin f =>
    .notImplemented ("The builtin function " ++ f.render ++ " is not registered")

/-- A call. The arguments are evaluated before the function is looked up. -/
def call (name : FunctionName) (args : List (Meaning M)) : Meaning M :=
  ofValue fun row => do
    let terms ← values row args
    let environment := (← act read).environment
    match environment.functions name with
    | none => act (Eval.fail (unknownFunction name))
    | some f =>
      let draw ← act Eval.newCall
      act (Eval.ofOption (f ⟨environment.queryId, row.id, draw⟩ terms))

end Meaning

/-- What an operator of one operand computes. -/
def UnaryOp.meaning : UnaryOp → Meaning M → Meaning M
  | not => Meaning.not
  | plus => Meaning.numeric some
  | minus => Meaning.numeric Number.neg?

/-- What an operator of two operands computes. -/
def BinaryOp.meaning : BinaryOp → Meaning M → Meaning M → Meaning M
  | or => Meaning.or
  | and => Meaning.and
  | equal => Meaning.equal
  | sameTerm => Meaning.sameTerm
  | greater => Meaning.ordered (· = .gt)
  | greaterOrEqual => Meaning.ordered (· ≠ .lt)
  | less => Meaning.ordered (· = .lt)
  | lessOrEqual => Meaning.ordered (· ≠ .gt)
  | add => Meaning.arithmetic Number.add?
  | subtract => Meaning.arithmetic Number.sub?
  | multiply => Meaning.arithmetic Number.mul?
  | divide => Meaning.arithmetic Number.div?

/-! ## Conditions and assignments -/

/-- Whether a solution satisfies a condition. A condition with an error is not
satisfied. -/
def Meaning.holds (m : Meaning M) (b : Binding) : M Bool := do
  let id ← act Eval.newSolutionId
  match ← absorb (m.test ⟨b, id⟩) with
  | .ok result => return result
  | .error _ => return false

/-- The value of an expression for a solution; absent if there is an error. -/
def Meaning.value? (m : Meaning M) (row : Row) : M (Option Term) := do
  match ← absorb (m.value row) with
  | .ok t => return some t
  | .error _ => return none

/-- The value that an assignment gives a variable. -/
abbrev Assignment (M : Type → Type := Eval) := Binding → M (Option Term)

namespace Assignment

/-- Every error is one of the query. -/
def strict (m : Meaning M) : Assignment M := fun b => do
  let id ← act Eval.newSolutionId
  return some (← m.value ⟨b, id⟩)

/-- The value of a variable; nothing if it is unbound. -/
def ofVar (v : Var) : Assignment M := fun b => do
  let _ ← act Eval.newSolutionId
  return b.get? v

end Assignment

end SparqlAlgebra
