import SparqlAlgebra.Binding
import SparqlAlgebra.Distinct

/-!
# Positions of patterns

The places of a pattern hold terms or variables, which bindings give values to.
-/

namespace SparqlAlgebra

/-- A place of a pattern. -/
inductive Position where
  | term (t : Term)
  | var (v : Var)
deriving DecidableEq, Inhabited

namespace Position

def toVar? : Position → Option Var
  | var v => some v
  | term _ => none

def toTerm? : Position → Option Term
  | term t => some t
  | var _ => none

/-- The term, or the value of the variable. -/
def resolve (b : Binding) : Position → Option Term
  | term t => some t
  | var v => b.get? v

/-- Puts the value of a bound variable in its place. -/
def substitute (b : Binding) (p : Position) : Position :=
  match p.resolve b with
  | some t => term t
  | none => p

def render : Position → String
  | term t => t.render
  | var v => v.render

/-- The distinct variables of positions. -/
def vars (ps : List Position) : List Var := dedup (ps.filterMap toVar?)

end Position

/-- A triple with variables. -/
structure TriplePattern where
  subject : Position
  predicate : Position
  object : Position
deriving DecidableEq, Inhabited

namespace TriplePattern

def positions (t : TriplePattern) : List Position :=
  [t.subject, t.predicate, t.object]

/-- The distinct variables in the order of the positions. -/
def vars (t : TriplePattern) : List Var := Position.vars t.positions

def render (t : TriplePattern) : String :=
  joinTexts " " (t.positions.map Position.render)

end TriplePattern

/-- The name of a graph or of a service: fixed or the value of a variable. -/
inductive NameRef where
  | iri (name : Iri)
  | var (v : Var)
deriving DecidableEq, Inhabited

def NameRef.render : NameRef → String
  | .iri name => name.render
  | .var v => v.render

end SparqlAlgebra
