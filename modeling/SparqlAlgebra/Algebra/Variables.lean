import SparqlAlgebra.Algebra
import SparqlAlgebra.Solutions

/-!
# Variables of the algebra

Which variables the solutions of a node may bind, which variables an expression
depends on, and which variables a tree mentions at all. All of them are lists
of distinct variables in a fixed order.
-/

namespace SparqlAlgebra

/-! ## Variables that solutions bind -/

mutual

/-- The variables that the solutions of a node may bind. -/
def Node.vars : Node → List Var
  | .bgp elements => dedup (Element.boundByAll elements)
  | .join l r | .leftJoin l r _ | .union l r =>
    mergeVariables l.vars r.vars
  | .minus l _ | .existsJoin l _ _ => l.vars
  | .filter inner _ | .having inner _ | .orderBy inner _ | .distinct inner
  | .reduced inner | .slice inner _ _ | .limit inner _ => inner.vars
  | .extend inner v _ => mergeVariables inner.vars [v]
  | .group _ keys values => keys ++ values.map GroupValue.target
  | .project _ vs | .values vs _ | .service _ vs _ _ | .custom _ vs _ => vs
  | .graph inner (.var v) => mergeVariables inner.vars [v]
  | .graph inner (.iri _) => inner.vars
  | .ask _ => []
  | .pathSearch s _ o => Position.vars [s, o]

/-- The variables that an element binds. -/
def Element.boundVariables : Element → List Var
  | .triple pattern => pattern.vars
  | .path s _ o => Position.vars [s, o]
  | .assign v _ => [v]
  | .subQuery query => query.vars
  | .filter _ => []

/-- The variables that each of the elements binds, one after the other. -/
def Element.boundByAll : List Element → List Var
  | [] => []
  | e :: rest => e.boundVariables ++ Element.boundByAll rest

end

/-! ## Variables that are mentioned -/

mutual

/-- The occurrences of variables in an expression, patterns included. -/
def Expr.occurrences : Expr → List Var
  | .constant _ => []
  | .var v | .bound v => [v]
  | .unary _ e => e.occurrences
  | .binary _ l r => l.occurrences ++ r.occurrences
  | .isIn e es => e.occurrences ++ Expr.occurrencesIn es
  | .cond c t e => c.occurrences ++ t.occurrences ++ e.occurrences
  | .coalesce es | .call _ es => Expr.occurrencesIn es
  | .hasMatch pattern => pattern.occurrences

def Expr.occurrencesIn : List Expr → List Var
  | [] => []
  | e :: rest => e.occurrences ++ Expr.occurrencesIn rest

def GroupValue.occurrencesIn : List GroupValue → List Var
  | [] => []
  | .countRows v _ :: rest => v :: GroupValue.occurrencesIn rest
  | .apply v _ e _ :: rest =>
    v :: e.occurrences ++ GroupValue.occurrencesIn rest

def OrderKey.occurrencesIn : List OrderKey → List Var
  | [] => []
  | .sortBy e _ :: rest => e.occurrences ++ OrderKey.occurrencesIn rest

def Element.occurrencesIn : List Element → List Var
  | [] => []
  | .triple pattern :: rest => pattern.vars ++ Element.occurrencesIn rest
  | .path s _ o :: rest =>
    Position.vars [s, o] ++ Element.occurrencesIn rest
  | .assign v e :: rest => v :: e.occurrences ++ Element.occurrencesIn rest
  | .subQuery query :: rest => query.occurrences ++ Element.occurrencesIn rest
  | .filter e :: rest => e.occurrences ++ Element.occurrencesIn rest

/-- The occurrences of variables in a tree: those of the inputs, those of the
expressions, then the variables of the node itself. -/
def Node.occurrences : Node → List Var
  | .bgp elements => Element.occurrencesIn elements
  | n@(.leftJoin l r (some e)) =>
    l.occurrences ++ r.occurrences ++ e.occurrences ++ n.vars
  | n@(.join l r) | n@(.leftJoin l r none) | n@(.union l r) | n@(.minus l r)
  | n@(.existsJoin l r _) => l.occurrences ++ r.occurrences ++ n.vars
  | n@(.filter inner e) | n@(.extend inner _ e) | n@(.having inner e) =>
    inner.occurrences ++ e.occurrences ++ n.vars
  | .group inner keys columns =>
    inner.occurrences ++ keys ++ GroupValue.occurrencesIn columns
  | n@(.orderBy inner keys) =>
    inner.occurrences ++ OrderKey.occurrencesIn keys ++ n.vars
  | n@(.distinct inner) | n@(.reduced inner) | n@(.project inner _)
  | n@(.slice inner _ _) | n@(.graph inner _) | n@(.ask inner)
  | n@(.limit inner _) => inner.occurrences ++ n.vars
  | n@(.service _ _ _ _) | n@(.values _ _) | n@(.pathSearch _ _ _) => n.vars
  | .custom _ vs children => vs ++ Node.occurrencesIn children

def Node.occurrencesIn : List Node → List Var
  | [] => []
  | n :: rest => n.occurrences ++ Node.occurrencesIn rest

end

/-- The variables that influence an expression. The current solution is put
into the pattern of a match, so all variables of the pattern count. -/
def Expr.vars (e : Expr) : List Var := dedup e.occurrences

/-- All variables that are mentioned in a tree, also those that its solutions
do not bind. -/
def Node.mentionedVariables (n : Node) : List Var := dedup n.occurrences

/-- The variables that an element needs to be placed behind others. -/
def Element.requiredVariables : Element → List Var
  | .assign v e => dedup (e.occurrences ++ [v])
  | .filter e => e.vars
  | _ => []

end SparqlAlgebra
