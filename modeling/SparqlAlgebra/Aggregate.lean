import SparqlAlgebra.Text.Quoted
import SparqlAlgebra.Value

/-!
# Aggregates

Functions from the values of a group to one value. A group is given as the list
of the values that an expression has on its members, with `none` where the
expression failed. A failed aggregate is `none` as well.
-/

namespace SparqlAlgebra

/-- The functions that can be applied to a group. -/
inductive AggregateFunction where
  | count | sum | avg | min | max | sample
  | groupConcat (separator : Option String)
  | custom (name : Iri)
deriving DecidableEq, Inhabited

namespace AggregateFunction

def render : AggregateFunction → String
  | count => "COUNT"
  | sum => "SUM"
  | avg => "AVG"
  | min => "MIN"
  | max => "MAX"
  | sample => "SAMPLE"
  | groupConcat none => "GROUP_CONCAT"
  | groupConcat (some separator) =>
    "GROUP_CONCAT[separator=" ++ Text.report separator ++ "]"
  | custom name => name.render

end AggregateFunction

namespace Aggregate

/-- Keeps the first of equal values, and all failures. -/
def distinctValues : List (Option Term) → List (Option Term)
  | [] => []
  | none :: rest => none :: distinctValues rest
  | some t :: rest => some t :: (distinctValues rest).filter (· ≠ some t)

/-- The number of values without the failures. -/
def count (values : List (Option Term)) : Nat :=
  (values.filter Option.isSome).length

/-- Adds the number that a value is, if both exist. -/
def addValue (total : Option Number) (value : Option Term) : Option Number := do
  (← total).add? (← Number.ofTerm? (← value))

/-- The sum of numbers; the sum of no numbers is zero. -/
def sum? (values : List (Option Term)) : Option Number :=
  values.foldl addValue (some (.integer 0))

/-- The sum divided by the number of values, failures included. -/
def average? (values : List (Option Term)) : Option Number := do
  let total ← sum? values
  if values.isEmpty then some (.integer 0)
  else total.div? (.integer values.length)

/-- Of two values the second one, if it compares to the first as asked. -/
def preferBy (wanted : Ordering) (best value : Option Term) : Option Term := do
  let b ← best
  let v ← value
  return if orderByCompare (some v) (some b) = wanted then v else b

/-- The first value that no later one beats; it exists if there are values and
none of them failed. -/
def extreme? (wanted : Ordering) : List (Option Term) → Option Term
  | [] => none
  | first :: rest => rest.foldl (preferBy wanted) first

/-- The first value that did not fail. -/
def sample? (values : List (Option Term)) : Option Term :=
  values.findSome? id

/-- The strings with a separator between them, if all values are strings. -/
def concat? (separator : String) (values : List (Option Term)) :
    Option Term := do
  let texts ← values.mapM fun v => v.bind TextValue.ofTerm?
  return TextValue.join separator texts

end Aggregate

namespace AggregateFunction

open Aggregate in
/-- The function on the values of a group. Functions that are named by an IRI
are not known. -/
def onValues? : AggregateFunction → Option (List (Option Term) → Option Term)
  | count => some fun values => some (.literal (.ofInt (Aggregate.count values)))
  | sum => some fun values => (sum? values).map Number.toTerm
  | avg => some fun values => (average? values).map Number.toTerm
  | min => some (extreme? .lt)
  | max => some (extreme? .gt)
  | sample => some sample?
  | groupConcat separator => some (concat? (separator.getD " "))
  | custom _ => none

/-- The function on all values of a group or on the distinct ones. -/
def onGroup? (f : AggregateFunction) (distinct : Bool) :
    Option (List (Option Term) → Option Term) :=
  f.onValues?.map fun g values =>
    g (if distinct then Aggregate.distinctValues values else values)

end AggregateFunction

end SparqlAlgebra
