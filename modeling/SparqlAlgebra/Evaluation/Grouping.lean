import SparqlAlgebra.Evaluation.Plan

/-!
# Grouping and sorting

Operators that see all solutions of their input before they yield the first
one. Groups come in the order of their first members, and sorting keeps the
order of solutions with equal keys.
-/

namespace SparqlAlgebra

open EvaluationMonad

variable {M : Type → Type} [EvaluationMonad M]

/-! ## Groups -/

/-- The values of the variables that solutions are grouped by. -/
abbrev GroupKey := List (Option Term)

/-- Adds a solution behind those with the same key. -/
def addToGroup (key : GroupKey) (b : Binding) :
    List (GroupKey × List Binding) → List (GroupKey × List Binding)
  | [] => [(key, [b])]
  | (k, members) :: rest =>
    if k = key then (k, members ++ [b]) :: rest
    else (k, members) :: addToGroup key b rest

/-- The solutions grouped by the values of variables. Without variables there
is one group, even if it has no members. -/
def groupsOf (keys : List Var) (rows : List Binding) :
    List (GroupKey × List Binding) :=
  let groups :=
    rows.foldl (fun groups b => addToGroup (keys.map b.get?) b groups) []
  if groups.isEmpty && keys.isEmpty then [([], [])] else groups

/-- What is computed for a group. -/
inductive Column (M : Type → Type := Eval) where
  | countRows (distinct : Bool)
  | apply (function : AggregateFunction) (argument : Meaning M) (distinct : Bool)

namespace Column

/-- The values of an expression for the members of a group. -/
def argumentValues (m : Meaning M) : List Binding → M (List (Option Term))
  | [] => pure []
  | b :: rest => do
    let id ← act Eval.newSolutionId
    let value ← m.value? ⟨b, id⟩
    return value :: (← argumentValues m rest)

/-- The value for the members of a group; absent if it is not defined. -/
def value? (members : List Binding) : Column M → M (Option Term)
  | countRows distinct =>
    let counted := if distinct then dedup members else members
    return some (intTerm counted.length)
  | apply function argument distinct =>
    match function.onGroup? distinct with
    | none =>
      act (Eval.fail (.notImplemented
        ("The aggregate function " ++ function.render ++ " is not supported")))
    | some f => do return f (← argumentValues argument members)

/-- Binds the value of each column to its variable. -/
def bindAll (members : List Binding) :
    List (Var × Column M) → Binding → M Binding
  | [], b => pure b
  | (v, column) :: rest, b => do
    match ← column.value? members with
    | some t => bindAll members rest (b.insert v t)
    | none => bindAll members rest b

/-- The solutions of groups. -/
def rows (keys : List Var) (columns : List (Var × Column M)) :
    List (GroupKey × List Binding) → M (List Binding)
  | [] => pure []
  | (key, members) :: rest => do
    let b ← bindAll members columns (Plan.valuesRow keys key)
    return b :: (← rows keys columns rest)

end Column

/-- One solution for each group of the inner solutions, which do not start from
the seed. -/
def Plan.group (inner : Plan M) (keys : List Var)
    (columns : List (Var × Column M)) : Plan M := fun _ => do
  let vars := keys ++ columns.map (·.1)
  let s ← withSeed none (inner none)
  if s.isSingleton then return .singleton vars
  else
    return .ofRows vars
      (← Column.rows keys columns (groupsOf keys s.rows))

/-! ## Sorting -/

/-- An expression to sort by, and whether its order is reversed. -/
structure SortKey (M : Type → Type := Eval) where
  key : Meaning M
  descending : Bool

namespace SortKey

/-- The values of the keys for a solution. -/
def values (row : Row) : List (SortKey M) → M (List (Option Term))
  | [] => pure []
  | k :: rest => do
    let value ← k.key.value? row
    return value :: (← values row rest)

/-- The rows with the values of their keys. -/
def keyed (keys : List (SortKey M)) :
    List Binding → M (List (List (Option Term) × Binding))
  | [] => pure []
  | b :: rest => do
    let id ← act Eval.newSolutionId
    let vs ← values ⟨b, id⟩ keys
    return (vs, b) :: (← keyed keys rest)

/-- The order of two lists of values: the first difference decides. -/
def compareValues : List Bool → List (Option Term) → List (Option Term) →
    Ordering
  | descending :: rest, x :: xs, y :: ys =>
    let order := orderByCompare x y
    (if descending then order.swap else order).then (compareValues rest xs ys)
  | _, _, _ => .eq

end SortKey

/-- Puts an element into a descending list, before the elements that are not
greater. -/
def insertDescending {α : Type} (less : α → α → Bool) (x : α) :
    List α → List α
  | [] => [x]
  | y :: rest =>
    if less x y then y :: insertDescending less x rest else x :: y :: rest

/-- Sorts a list. Each element is put behind the elements before it that are
not greater. -/
def stableSort {α : Type} (less : α → α → Bool) (xs : List α) : List α :=
  (xs.foldl (fun sorted x => insertDescending less x sorted) []).reverse

/-- Sorts all inner solutions. -/
def Plan.orderBy (inner : Plan M) (keys : List (SortKey M)) : Plan M := fun _ => do
  let s ← inner none
  if s.isSingleton then return s
  else
    let rows ← SortKey.keyed keys s.rows
    let directions := keys.map (·.descending)
    let less (a b : List (Option Term) × Binding) : Bool :=
      SortKey.compareValues directions a.1 b.1 = .lt
    return .ofRows s.vars ((stableSort less rows).map (·.2))

end SparqlAlgebra
