import SparqlAlgebra.Text.CharClass

/-!
# Regular expressions

Patterns of characters, as they are after reading: sets of characters,
assertions about a place in a text, sequences, alternatives, repetitions and
numbered groups.
-/

namespace SparqlAlgebra

/-- A set of characters. -/
inductive CharSet where
  | ranges (ranges : Text.CodeRanges)
  | complement (set : CharSet)
  | union (a b : CharSet)
  | intersection (a b : CharSet)
  | difference (a b : CharSet)
  /-- What lies in one of two sets but not in both. -/
  | symmetricDifference (a b : CharSet)
  /-- The characters that differ from one of the set only in case. -/
  | caseless (set : CharSet)
deriving Inhabited

namespace CharSet

def contains : CharSet → Nat → Bool
  | ranges rs, c => rs.contains c
  | complement s, c => !s.contains c
  | union a b, c => a.contains c || b.contains c
  | intersection a b, c => a.contains c && b.contains c
  | difference a b, c => a.contains c && !b.contains c
  | symmetricDifference a b, c => a.contains c != b.contains c
  | caseless s, c => (Text.caseVariants c).any s.contains

def ofChar (c : Char) : CharSet := ranges [(c.toNat, c.toNat)]

/-- The set without characters. -/
def none : CharSet := ranges []

/-- All characters. -/
def any : CharSet := complement none

/-- The number of ranges of a set that is written as ranges of ASCII. -/
def asciiRangeCount? : CharSet → Option Nat
  | ranges rs =>
    if rs.all fun r => r.2 < 128 then some rs.length else Option.none
  | union a b => do return (← a.asciiRangeCount?) + (← b.asciiRangeCount?)
  | _ => Option.none

/-- The size of the program for ranges in bytes. A single character takes a
state of 32 bytes for each of its own, ranges of ASCII two states and eight bytes
for each range. What other ranges take depends on how they fall on the bytes of
their characters; it is estimated. -/
def rangesSize (rs : Text.CodeRanges) : Nat :=
  let each := if rs.all fun r => r.2 < 128 then 8 else 62
  match rs with
  | [] => 32
  | [(a, b)] => if a = b then 32 * (Char.ofNat a).utf8Size else 64 + each
  | _ => 64 + each * rs.length

/-- The size of the set's program in bytes. -/
def programSize : CharSet → Nat
  | ranges rs => rangesSize rs
  | union a b =>
    match (union a b).asciiRangeCount? with
    | some count => 64 + 8 * count
    | Option.none => a.programSize + b.programSize
  | complement s => s.programSize + 968
  | intersection a b | difference a b | symmetricDifference a b =>
    a.programSize + b.programSize
  | caseless s => s.programSize + 64

end CharSet

/-- A condition on a place in a text. -/
inductive Assertion where
  | textStart
  | textEnd
  | lineStart
  | lineEnd
  /-- Lines end at a carriage return, a line feed, or both together. -/
  | returnStart
  | returnEnd
  | wordBoundary
  | notWordBoundary
  | wordStart
  | wordEnd
  | wordStartHalf
  | wordEndHalf
deriving DecidableEq, Inhabited

/-- A regular expression. -/
inductive Regex where
  | empty
  | char (set : CharSet)
  | assertion (a : Assertion)
  | concat (a b : Regex)
  | alternative (a b : Regex)
  /-- At least `min` and at most `max` repetitions; as many as possible if
  greedy, as few as possible otherwise. -/
  | repeated (r : Regex) (min : Nat) (max : Option Nat) (greedy : Bool)
  | group (index : Nat) (r : Regex)
deriving Inhabited

namespace Regex

/-- Whether the expression can match without reading a character. -/
def isNullable : Regex → Bool
  | empty | assertion _ => true
  | char _ => false
  | concat a b => a.isNullable && b.isNullable
  | alternative a b => a.isNullable || b.isNullable
  | repeated r min _ _ => min = 0 || r.isNullable
  | group _ r => r.isNullable

/-- The size of the expression's program in bytes: 32 for each state, four for
each branch. Repetitions are written out. -/
def programSize : Regex → Nat
  | empty | assertion _ => 32
  | char s => s.programSize
  | concat a b => a.programSize + b.programSize
  | alternative a b =>
    a.programSize + b.programSize + (if b matches alternative .. then 4 else 72)
  | repeated r min max _ =>
    let size := r.programSize
    match max with
    | some 0 => 32
    | some most =>
      if most = min then size * most
      else size * most + 40 * (most - min) + 32
    | none =>
      if min = 0 && r.isNullable then size + 112
      else size * Nat.max min 1 + 40
  | group _ r => r.programSize + 64

end Regex

end SparqlAlgebra
