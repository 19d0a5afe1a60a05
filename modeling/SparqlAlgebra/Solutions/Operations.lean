import SparqlAlgebra.Solutions

/-!
# Operations on one result

Union, selection, duplicate elimination, projection and slices of solutions.
A dry run keeps its form under all of them.
-/

namespace SparqlAlgebra

namespace Solutions

/-- The rows of both, those of the first first. -/
def union : Solutions → Solutions → Solutions
  | null, s | s, null => s
  | a, b =>
    let vars := mergeVariables a.vars b.vars
    if a.isSingleton || b.isSingleton then singleton vars
    else ofRows vars (a.rows ++ b.rows)

/-- The elements on which an effectful test holds, in order. -/
def keepM {m : Type → Type} {α : Type} [Monad m] (test : α → m Bool) :
    List α → m (List α)
  | [] => pure []
  | x :: rest => do
    let holds ← test x
    let kept ← keepM test rest
    return if holds then x :: kept else kept

/-- Keeps the rows on which `condition` holds. -/
def retainM {m : Type → Type} [Monad m] (s : Solutions)
    (condition : Binding → m Bool) : m Solutions :=
  match s with
  | singleton vs => pure (singleton vs)
  | s => return ofRows s.vars (← keepM condition s.rows)

/-- Keeps the first of equal rows. -/
def distinct : Solutions → Solutions
  | table vs rows => ofRows vs (dedup rows)
  | s => s

/-- Restricts the rows to the given variables. -/
def project (s : Solutions) (vs : List Var) : Solutions :=
  match s with
  | null => null
  | singleton _ => singleton vs
  | s => ofRows vs (s.rows.map (·.project vs))

/-- Declares further variables without binding them. -/
def extendVariables (s : Solutions) (vs : List Var) : Solutions :=
  match s with
  | null => null
  | singleton ws => singleton (mergeVariables ws vs)
  | s => ofRows (mergeVariables s.vars vs) s.rows

/-- Skips `offset` rows and keeps at most `limit` of the rest. -/
def slice (s : Solutions) (offset : Nat) (limit : Option Nat) : Solutions :=
  match s with
  | singleton vs => singleton vs
  | s =>
    let rest := s.rows.drop offset
    ofRows s.vars
      (match limit with
       | none => rest
       | some n => rest.take n)

/-- Keeps at most the first `n` rows. -/
def truncate (s : Solutions) (n : Nat) : Solutions :=
  if s.size ≤ n then s else s.slice 0 (some n)

end Solutions

end SparqlAlgebra
