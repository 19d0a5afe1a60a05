/-!
# Sets and maps of code points

Sets of characters as ranges of code points, and maps between characters as
runs of code points that are moved by the same distance.
-/

namespace SparqlAlgebra.Text

/-- Ranges of code points, both ends included. -/
abbrev CodeRanges := List (Nat × Nat)

/-- Whether a code point lies in one of the ranges. -/
def CodeRanges.contains (ranges : CodeRanges) (c : Nat) : Bool :=
  ranges.any fun r => r.1 ≤ c && c ≤ r.2

/-- Every `step`-th code point from `first` to `last` is moved by `shift`. -/
structure CodeRun where
  first : Nat
  last : Nat
  step : Nat
  shift : Int

namespace CodeRun

/-- Whether a run moves a code point. -/
def covers (run : CodeRun) (c : Nat) : Bool :=
  run.first ≤ c && c ≤ run.last && (c - run.first) % run.step = 0

/-- The code point that a code point is moved to. -/
def apply (run : CodeRun) (c : Nat) : Nat := (c + run.shift).toNat

end CodeRun

/-- The image of a code point; those that no run covers stay. -/
def mapCodePoint (runs : List CodeRun) (c : Nat) : Nat :=
  match runs.find? (·.covers c) with
  | some run => run.apply c
  | none => c

/-- The code points that some run moves to `c`. -/
def preimages (runs : List CodeRun) (c : Nat) : List Nat :=
  runs.filterMap fun run =>
    let d := ((c : Int) - run.shift).toNat
    if run.covers d && run.apply d = c then some d else none

end SparqlAlgebra.Text
