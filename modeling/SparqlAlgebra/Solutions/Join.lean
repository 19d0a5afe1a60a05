import SparqlAlgebra.Solutions

/-!
# Joins of solutions

Joins pair every left row with the compatible right rows, in the order of the
left rows and then of the right rows. The right rows are looked up by their
terms for the shared variables; rows that leave a shared variable unbound are
candidates for every left row.
-/

namespace SparqlAlgebra

/-- The terms of `vs` in `b`, if all of them are bound. -/
def joinKey (vs : List Var) (b : Binding) : Option (List Term) :=
  vs.mapM b.get?

/-- A row with its position among the right rows. -/
abbrev PlacedRow := Nat × Binding

/-- Two ascending lists of rows in one, in the order of their positions. -/
def mergeByPlace : List PlacedRow → List PlacedRow → List PlacedRow
  | [], bs => bs
  | a :: as, bs =>
    bs.takeWhile (·.1 < a.1) ++ a :: mergeByPlace as (bs.dropWhile (·.1 < a.1))

/-- Right rows arranged by their terms for the shared variables. -/
structure JoinIndex where
  shared : List Var
  all : List Binding
  /-- The rows that bind every shared variable, by their terms for these. -/
  complete : List (List Term × List PlacedRow)
  /-- The rows that leave some shared variable unbound. -/
  loose : List PlacedRow

namespace JoinIndex

/-- Adds a row behind the rows with the same key. -/
def addToBucket (key : List Term) (row : PlacedRow) :
    List (List Term × List PlacedRow) → List (List Term × List PlacedRow)
  | [] => [(key, [row])]
  | (k, bucket) :: rest =>
    if k = key then (k, bucket ++ [row]) :: rest
    else (k, bucket) :: addToBucket key row rest

/-- Adds the row at a position. -/
def add (index : JoinIndex) (row : PlacedRow) : JoinIndex :=
  match joinKey index.shared row.2 with
  | some key =>
    { index with complete := addToBucket key row index.complete }
  | none => { index with loose := index.loose ++ [row] }

/-- The index of `rows` over the `shared` variables. -/
def build (shared : List Var) (rows : List Binding) : JoinIndex :=
  (rows.zipIdx.map fun (row, i) => (i, row)).foldl add ⟨shared, rows, [], []⟩

/-- The right rows that may be compatible with a left row, in their order. -/
def candidates (index : JoinIndex) (left : Binding) : List Binding :=
  match index.shared with
  | [] => index.all
  | shared =>
    match joinKey shared left with
    | none => index.all
    | some key =>
      let bucket := (index.complete.lookup key).getD []
      (mergeByPlace bucket index.loose).map (·.2)

end JoinIndex

namespace Solutions

/-- The index of the right rows over the variables of both sides. -/
def joinIndex (a b : Solutions) : JoinIndex :=
  .build (a.vars.filter (b.vars.contains ·)) b.rows

/-- Merges every pair of compatible rows. -/
def join : Solutions → Solutions → Solutions
  | null, _ | _, null => null
  | identity, s | s, identity => s
  | a, b =>
    let vars := mergeVariables a.vars b.vars
    if a.isSingleton || b.isSingleton then singleton vars
    else
      let index := joinIndex a b
      ofRows vars
        (a.rows.flatMap fun left =>
          (index.candidates left).filterMap left.merge?)

/-- The merges of `left` with the compatible rows on which `condition` holds. -/
def mergesM {m : Type → Type} [Monad m] (condition : Binding → m Bool)
    (left : Binding) : List Binding → m (List Binding)
  | [] => pure []
  | right :: rest =>
    match left.merge? right with
    | none => mergesM condition left rest
    | some merged => do
      let holds ← condition merged
      let merges ← mergesM condition left rest
      return if holds then merged :: merges else merges

/-- The rows of a left join: the merges of each left row, or the left row
itself if it has none. -/
def leftRowsM {m : Type → Type} [Monad m] (condition : Binding → m Bool)
    (candidates : Binding → List Binding) :
    List Binding → m (List Binding)
  | [] => pure []
  | left :: rest => do
    let merges ← mergesM condition left (candidates left)
    let rows ← leftRowsM condition candidates rest
    return (if merges.isEmpty then [left] else merges) ++ rows

/-- Extends every left row by the compatible right rows on which `condition`
holds, and keeps a left row that cannot be extended. -/
def leftJoinM {m : Type → Type} [Monad m] (a b : Solutions)
    (condition : Binding → m Bool) : m Solutions :=
  match a, b with
  | null, _ => pure null
  | a, null => pure a
  | a, b => do
    let vars := mergeVariables a.vars b.vars
    if a.isSingleton || b.isSingleton then return singleton vars
    let index := joinIndex a b
    let rows ← leftRowsM condition index.candidates a.rows
    return ofRows vars rows

/-- Whether a right row is compatible with `left` and shares a variable. -/
def isExcluded (left : Binding) (rows : List Binding) : Bool :=
  rows.any fun right => left.sharesVariable right && left.isCompatible right

/-- Drops the left rows that are compatible with a right row they share a
bound variable with. -/
def minus : Solutions → Solutions → Solutions
  | null, _ => null
  | a, null | a, identity => a
  | singleton vs, _ => singleton vs
  | a, singleton _ => a
  | a, b =>
    if a.vars.all fun v => !b.vars.contains v then a
    else ofRows a.vars (a.rows.filter fun left => !isExcluded left b.rows)

end Solutions

end SparqlAlgebra
