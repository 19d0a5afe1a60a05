import SparqlAlgebra.Binding

/-!
# Operations on lists of entries

The operations of bindings, done on a list of entries of which nothing is known. A
variable is looked up by halving, and two lists are compared or merged by walking along
both of them at once. Both are right for ascending entries only, so every operation relies
on the order that the operations before it have left.
-/

namespace SparqlAlgebra

/-- Where the search for a variable ends: at the index of its entry, or at the index where
its entry would have to stand. -/
inductive Place where
  | found (i : Nat)
  | gap (i : Nat)

namespace Entries

/-! ## Lookup -/

/-- Halves a window of `size` entries from the index `base` on until one entry is left. The
upper half is dropped if it begins with a greater variable, and otherwise the lower one. -/
def narrow (es : List Entry) (v : Var) (base size : Nat) : Nat :=
  if size ≤ 1 then base
  else if es[base + size / 2]?.any (v < ·.1) then narrow es v base (size - size / 2)
  else narrow es v (base + size / 2) (size - size / 2)
termination_by size

/-- Searches for a variable. -/
def position (es : List Entry) (v : Var) : Place :=
  let base := narrow es v 0 es.length
  match es[base]? with
  | none => .gap base
  | some e =>
    if e.1 = v then .found base else if e.1 < v then .gap (base + 1) else .gap base

/-- The term of a variable. -/
def get? (es : List Entry) (v : Var) : Option Term :=
  match position es v with
  | .found i => es[i]?.map (·.2)
  | .gap _ => none

/-- Whether a variable is bound. -/
def contains (es : List Entry) (v : Var) : Bool :=
  match position es v with
  | .found _ => true
  | .gap _ => false

/-! ## Changes -/

/-- Binds a variable. The term that it had before is the first component. -/
def insert (es : List Entry) (v : Var) (t : Term) : Option Term × List Entry :=
  match position es v with
  | .found i => (es[i]?.map (·.2), es.modify i fun e => (e.1, t))
  | .gap i => (none, es.insertIdx i (v, t))

/-- Unbinds a variable. The term that it had before is the first component. -/
def erase (es : List Entry) (v : Var) : Option Term × List Entry :=
  match position es v with
  | .found i => (es[i]?.map (·.2), es.eraseIdx i)
  | .gap _ => (none, es)

/-- A copy in which a variable is bound. -/
def extend (es : List Entry) (v : Var) (t : Term) : List Entry := (insert es v t).2

/-- Binds one variable after the other. -/
def collect (given : List Entry) : List Entry :=
  given.foldl (fun es e => (insert es e.1 e.2).2) []

/-- Keeps the entries of the given variables. -/
def project (es : List Entry) (vs : List Var) : List Entry :=
  es.filter fun e => vs.contains e.1

/-! ## Two lists -/

/-- Walks along two lists, always past the lesser variable and past equal ones in both, and
yields the entries that it passes. It stops if a variable has two terms. -/
def walk : List Entry → List Entry → Option (List Entry)
  | [], rs => some rs
  | ls, [] => some ls
  | l :: ls, r :: rs =>
    if l.1 < r.1 then (walk ls (r :: rs)).map (l :: ·)
    else if r.1 < l.1 then (walk (l :: ls) rs).map (r :: ·)
    else if l.2 = r.2 then (walk ls rs).map (l :: ·)
    else none
termination_by ls rs => ls.length + rs.length

/-- Whether no variable has two terms. -/
def isCompatible (ls rs : List Entry) : Bool := (walk ls rs).isSome

/-- The entries of both lists, unless a variable has two terms. -/
def merge? (ls rs : List Entry) : Option (List Entry) :=
  if rs.isEmpty then some ls
  else if ls.isEmpty then some rs
  else walk ls rs

/-- Walks along two lists until they meet at a variable. -/
def sharesVariable : List Entry → List Entry → Bool
  | [], _ => false
  | _, [] => false
  | l :: ls, r :: rs =>
    if l.1 < r.1 then sharesVariable ls (r :: rs)
    else if r.1 < l.1 then sharesVariable (l :: ls) rs
    else true
termination_by ls rs => ls.length + rs.length

end Entries

end SparqlAlgebra
