import SparqlAlgebra.Binding
import SparqlAlgebra.Distinct

/-!
# Solutions

What evaluating a pattern yields: a list of bindings together with the
variables they may bind. The list keeps its order and its duplicates. Two
results without variables have a form of their own, the empty result and the
result that consists of one empty binding, and a dry run yields variables only.
-/

namespace SparqlAlgebra

/-- The result of a pattern. -/
inductive Solutions where
  /-- One empty binding: neutral in joins. -/
  | identity
  /-- No binding: absorbing in joins. -/
  | null
  /-- The variables of a pattern that was not run against data. -/
  | singleton (vars : List Var)
  /-- Bindings of the given variables. -/
  | table (vars : List Var) (rows : List Binding)
deriving DecidableEq, Inhabited

/-- The distinct variables of both lists, those of the first list first. -/
def mergeVariables (vs ws : List Var) : List Var :=
  vs ++ (dedup ws).filter (!vs.contains ·)

theorem mem_mergeVariables {v : Var} {vs ws : List Var} :
    v ∈ mergeVariables vs ws ↔ v ∈ vs ∨ v ∈ ws := by
  simp only [mergeVariables, List.mem_append, List.mem_filter, mem_dedup,
    Bool.not_eq_eq_eq_not, Bool.not_true, List.contains_eq_mem,
    decide_eq_false_iff_not]
  by_cases h : v ∈ vs <;> simp [h]

namespace Solutions

/-- The solutions with the given variables and rows. Without variables, no row
and one row are the two special results. -/
def ofRows (vars : List Var) (rows : List Binding) : Solutions :=
  match vars, rows with
  | [], [] => null
  | [], [_] => identity
  | vs, rows => table vs rows

/-- The one solution that is `b`. -/
def ofBinding (b : Binding) : Solutions := ofRows b.vars [b]

def vars : Solutions → List Var
  | identity | null => []
  | singleton vs | table vs _ => vs

/-- The bindings. A dry run counts as one empty binding. -/
def rows : Solutions → List Binding
  | identity | singleton _ => [Binding.empty]
  | null => []
  | table _ rows => rows

def size (s : Solutions) : Nat := s.rows.length

def isEmpty (s : Solutions) : Bool := s.rows.isEmpty

/-- Whether the solutions stem from a dry run. -/
def isSingleton : Solutions → Bool
  | singleton _ => true
  | _ => false

/-- Every row binds declared variables only. -/
def WellFormed (s : Solutions) : Prop :=
  ∀ row ∈ s.rows, ∀ v ∈ row.vars, v ∈ s.vars

private def renderVariables (vs : List Var) : String :=
  "[" ++ joinTexts ", " (vs.map Var.render) ++ "]"

/-- The name of the form of a result. -/
def kind : Solutions → String
  | identity => "Identity"
  | null => "Null"
  | singleton _ => "Singleton"
  | table _ _ => "Solutions"

/-- The solutions as text, one row a line. -/
def render (s : Solutions) : String :=
  match s with
  | identity | null => s.kind
  | singleton vs => s.kind ++ " " ++ renderVariables vs
  | table vs rows =>
    s.kind ++ " " ++ renderVariables vs ++
      String.join (rows.map fun row => "\n  " ++ row.render)

@[simp] theorem rows_ofRows_of_ne_nil {vs : List Var} {rows : List Binding}
    (h : vs ≠ []) : (ofRows vs rows).rows = rows := by
  unfold ofRows
  split <;> simp_all [Solutions.rows]

theorem size_ofRows (vs : List Var) (rows : List Binding) :
    (ofRows vs rows).size = rows.length := by
  unfold ofRows
  split <;> simp [size, Solutions.rows]

end Solutions

end SparqlAlgebra
