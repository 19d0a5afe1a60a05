import SparqlAlgebra.Quad
import SparqlAlgebra.Text.Quoted

/-!
# Active graphs

The part of a dataset that patterns are matched against: its default graph, all
its graphs, some of its graphs, or one named graph.
-/

namespace SparqlAlgebra

/-- Which graphs patterns are matched against. -/
inductive ActiveGraph where
  | default
  | all
  | union (graphs : List GraphName)
  | named (name : Resource)
deriving DecidableEq, Inhabited

namespace ActiveGraph

/-- The graphs to be read one after the other, or `none` for all at once. -/
def graphNames? : ActiveGraph → Option (List GraphName)
  | default => some [.default]
  | all => none
  | union graphs => some graphs
  | named name => some [.named name]

/-- Whether more than one graph is read, so that a triple may be met twice. -/
def isMerged : ActiveGraph → Bool
  | all => true
  | union graphs => graphs.length > 1
  | default | named _ => false

/-- The number a label stands for if it consists of lower-case hexadecimal
digits, has no leading zero and fits into 128 bits. -/
private def labelNumber? (label : String) : Option Nat :=
  match label.toList with
  | [] | '0' :: _ => none
  | digits =>
    if digits.all fun c => c.isDigit || ('a' ≤ c && c ≤ 'f') then
      let n := digits.foldl (fun acc c =>
        acc * 16 + (if c.isDigit then c.toNat - 48 else c.toNat - 87)) 0
      if n < Nat.pow 2 128 then some n else none
    else none

/-- The lowest `count` bytes of a number, the least significant byte first. -/
private def lowBytes : Nat → Nat → List Nat
  | 0, _ => []
  | count + 1, n => n % 256 :: lowBytes count (n / 256)

/-- A row of bytes in the report of a union of graphs. -/
private def reportBytes (bytes : List Nat) : String :=
  "[" ++ String.intercalate ", " (bytes.map toString) ++ "]"

/-- A blank node in the report of a union of graphs. A label that stands for a
number is given by the sixteen bytes of the number and by its digits, filled up
with zeros to thirty-two bytes. -/
private def reportBlank (b : BlankNode) : String :=
  match labelNumber? b.label with
  | none => "BlankNode(Named(" ++ Text.report b.label ++ "))"
  | some n =>
    let digits := b.label.toList.map Char.toNat
    let filled := digits ++ List.replicate (32 - digits.length) 0
    "BlankNode(Anonymous \x7b id: " ++ reportBytes (lowBytes 16 n) ++
      ", str: IdStr(" ++ reportBytes filled ++ ") \x7d)"

private def reportGraph : GraphName → String
  | .default => "DefaultGraph"
  | .named (.iri i) =>
    "NamedNode(NamedNode \x7b iri: " ++ Text.report i.value ++ " \x7d)"
  | .named (.blank b) => "BlankNode(" ++ reportBlank b ++ ")"

/-- The active graph as text. -/
def render : ActiveGraph → String
  | default => "Default Graph"
  | all => "All Graphs"
  | union graphs =>
    "Union of [" ++ String.intercalate ", " (graphs.map reportGraph) ++ "]"
  | named name => "Named Graph " ++ name.toTerm.render

end ActiveGraph

end SparqlAlgebra
