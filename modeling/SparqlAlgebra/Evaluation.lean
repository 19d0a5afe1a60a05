import SparqlAlgebra.Algebra.Structure
import SparqlAlgebra.Algebra.Variables
import SparqlAlgebra.Evaluation.GraphPattern
import SparqlAlgebra.Evaluation.Grouping

/-!
# The evaluation of trees

Every node is given a plan and every expression a meaning, by recursion on the
tree: each operator combines the plans of its inputs and the meanings of its
expressions. Operators that are defined elsewhere are a parameter.
-/

namespace SparqlAlgebra

/-- How operators that are defined elsewhere compute their solutions from those
of their inputs. -/
abbrev OperatorRegistry (M : Type → Type := Eval) := String → List (M Solutions) → M Solutions

/-- No such operator can be evaluated. -/
def OperatorRegistry.empty : OperatorRegistry := fun name _ =>
  Eval.fail (.notImplemented ("The custom algebra node '" ++ name ++
    "' has no evaluation procedure and was not rewritten."))

open EvaluationMonad

variable {M : Type → Type} [EvaluationMonad M]

/-- The assignment of the value of an expression. A variable that is unbound
is no error. -/
def Expr.assignment (e : Expr) (m : Meaning M) : Assignment M :=
  match e with
  | .var v => .ofVar v
  | _ => .strict m

mutual

/-- How the solutions of a node are computed. -/
def Node.plan (operators : OperatorRegistry M) : Node → Plan M
  | n@(.bgp elements) => Plan.observed n.name
    (Plan.bgp (Element.steps operators 0 elements) n.vars)
  | n@(.join l r) => Plan.observed n.name
    (Plan.join (.input 0 (l.plan operators)) (.input 1 (r.plan operators)))
  | n@(.leftJoin l r (some e)) => Plan.observed n.name
    (Plan.leftJoin (.input 0 (l.plan operators)) (.input 1 (r.plan operators))
      (e.meaning operators).holds)
  | n@(.leftJoin l r none) => Plan.observed n.name
    (Plan.leftJoin (.input 0 (l.plan operators)) (.input 1 (r.plan operators))
      fun _ => pure true)
  | n@(.union l r) => Plan.observed n.name
    (Plan.union (.input 0 (l.plan operators)) (.input 1 (r.plan operators))
      r.vars)
  | n@(.minus l r) => Plan.observed n.name
    (Plan.minus (.input 0 (l.plan operators)) (.input 1 (r.plan operators)))
  | n@(.existsJoin l r negated) => Plan.observed n.name
    (Plan.existsJoin (.input 0 (l.plan operators))
      (.input 1 (r.plan operators)) negated)
  | n@(.filter inner e) | n@(.having inner e) => Plan.observed n.name
    (Plan.filter (.input 0 (inner.plan operators)) (e.meaning operators).holds)
  | n@(.extend inner v e) => Plan.observed n.name
    (Plan.extend (.input 0 (inner.plan operators)) v
      (e.assignment (e.meaning operators)))
  | n@(.group inner keys values) => Plan.observed n.name
    (Plan.group (.input 0 (inner.plan operators)) keys
      (GroupValue.columns operators values))
  | n@(.orderBy inner keys) => Plan.observed n.name
    (Plan.orderBy (.input 0 (inner.plan operators))
      (OrderKey.sortKeys operators keys))
  | n@(.distinct inner) => Plan.observed n.name
    (Plan.distinct (.input 0 (inner.plan operators)))
  | n@(.reduced inner) => Plan.observed n.name
    (.input 0 (inner.plan operators))
  | n@(.project inner vs) => Plan.observed n.name
    (Plan.project (.input 0 (inner.plan operators)) vs)
  | n@(.slice inner offset count) => Plan.observed n.name
    (Plan.slice (.input 0 (inner.plan operators)) offset count)
  | n@(.graph inner name) => Plan.observed n.name
    (Plan.graph (.input 0 (inner.plan operators)) name inner.vars)
  | n@(.service name vs silent pattern) => Plan.observed n.name
    (.ofActions (Plan.service name vs silent pattern))
  | n@(.ask inner) => Plan.observed n.name
    (Plan.ask (.input 0 (inner.plan operators)))
  | n@(.values vs rows) => Plan.observed n.name (.ofActions (Plan.values vs rows))
  | n@(.pathSearch s search o) => Plan.observed n.name
    (.ofActions (Plan.pathSearch s search o))
  | n@(.limit inner count) => Plan.observed n.name
    (Plan.limit (.input 0 (inner.plan operators)) count)
  | n@(.custom name _ children) => Plan.observed n.name
    fun _ => operators name (Node.inputs operators 0 children)

/-- All solutions of the inputs of an operator, which are numbered. -/
def Node.inputs (operators : OperatorRegistry M) (i : Nat) :
    List Node → List (M Solutions)
  | [] => []
  | n :: rest =>
    Plan.input i (n.plan operators) none ::
      Node.inputs operators (i + 1) rest

/-- What the elements of a basic graph pattern do; the sub-queries among them
are numbered. -/
def Element.steps (operators : OperatorRegistry M) (i : Nat) :
    List Element → List (Step M)
  | [] => []
  | .triple pattern :: rest =>
    .extend (fun b => act (Step.matchTriple pattern b)) :: Element.steps operators i rest
  | .path s path o :: rest =>
    .extend (fun b => act (Step.matchPath s path o b)) :: Element.steps operators i rest
  | .assign v e :: rest =>
    .assign v (e.assignment (e.meaning operators)) ::
      Element.steps operators i rest
  | .subQuery query :: rest =>
    .subQuery i (Plan.input i (query.plan operators)) ::
      Element.steps operators (i + 1) rest
  | .filter e :: rest =>
    .filter (e.meaning operators).holds :: Element.steps operators i rest

def GroupValue.columns (operators : OperatorRegistry M) :
    List GroupValue → List (Var × Column M)
  | [] => []
  | .countRows v distinct :: rest =>
    (v, .countRows distinct) :: GroupValue.columns operators rest
  | .apply v function e distinct :: rest =>
    (v, .apply function (e.meaning operators) distinct) ::
      GroupValue.columns operators rest

def OrderKey.sortKeys (operators : OperatorRegistry M) :
    List OrderKey → List (SortKey M)
  | [] => []
  | .sortBy e descending :: rest =>
    ⟨e.meaning operators, descending⟩ :: OrderKey.sortKeys operators rest

/-- What an expression computes. -/
def Expr.meaning (operators : OperatorRegistry M) : Expr → Meaning M
  | .constant t => Meaning.constant t
  | .var v => Meaning.var v
  | .bound v => Meaning.bound v
  | .unary op e => op.meaning (e.meaning operators)
  | .binary op l r => op.meaning (l.meaning operators) (r.meaning operators)
  | .isIn e es => Meaning.isIn (e.meaning operators) (Expr.meanings operators es)
  | .cond c t e => Meaning.cond (c.meaning operators) (t.meaning operators)
    (e.meaning operators)
  | .coalesce es => Meaning.coalesce (Expr.meanings operators es)
  | .call f es => Meaning.call f (Expr.meanings operators es)
  | .hasMatch pattern => Meaning.ofTest fun row =>
    Plan.hasMatch (Plan.inExpression (pattern.plan operators)) row.binding

def Expr.meanings (operators : OperatorRegistry M) : List Expr → List (Meaning M)
  | [] => []
  | e :: rest => e.meaning operators :: Expr.meanings operators rest

end

end SparqlAlgebra
