import SparqlAlgebra.Algebra

/-!
# Walking through trees

Effectful functions on nodes, applied to every node of a tree bottom-up or
top-down. Sub-queries and the patterns inside expressions belong to the tree;
what a custom node contains, and the expressions of a grouping, are left alone.
Inputs come before expressions, and left before right.
-/

namespace SparqlAlgebra

variable {m : Type → Type} [Monad m]

/-! ## Patterns of expressions -/

mutual

/-- Replaces the patterns inside an expression. -/
def Expr.mapPatternsM (f : Node → m Node) : Expr → m Expr
  | .constant t => pure (.constant t)
  | .var v => pure (.var v)
  | .bound v => pure (.bound v)
  | .unary op e => return .unary op (← e.mapPatternsM f)
  | .binary op l r =>
    return .binary op (← l.mapPatternsM f) (← r.mapPatternsM f)
  | .isIn e es => return .isIn (← e.mapPatternsM f) (← Expr.mapAllPatternsM f es)
  | .cond c t e =>
    return .cond (← c.mapPatternsM f) (← t.mapPatternsM f) (← e.mapPatternsM f)
  | .coalesce es => return .coalesce (← Expr.mapAllPatternsM f es)
  | .call g es => return .call g (← Expr.mapAllPatternsM f es)
  | .hasMatch pattern => return .hasMatch (← f pattern)

def Expr.mapAllPatternsM (f : Node → m Node) : List Expr → m (List Expr)
  | [] => pure []
  | e :: rest => return (← e.mapPatternsM f) :: (← Expr.mapAllPatternsM f rest)

end

/-- Replaces the inputs of an element. -/
def Element.mapNodesM (f : Node → m Node) : Element → m Element
  | .subQuery query => return .subQuery (← f query)
  | .assign v e => return .assign v (← e.mapPatternsM f)
  | .filter e => return .filter (← e.mapPatternsM f)
  | .triple pattern => pure (.triple pattern)
  | .path s p o => pure (.path s p o)

def Element.mapAllNodesM (f : Node → m Node) : List Element → m (List Element)
  | [] => pure []
  | e :: rest => return (← e.mapNodesM f) :: (← Element.mapAllNodesM f rest)

def OrderKey.mapAllPatternsM (f : Node → m Node) :
    List OrderKey → m (List OrderKey)
  | [] => pure []
  | .sortBy e descending :: rest =>
    return .sortBy (← e.mapPatternsM f) descending ::
      (← OrderKey.mapAllPatternsM f rest)

/-- Replaces the inputs of a node and the patterns of its expressions. -/
def Node.mapChildrenM (f : Node → m Node) : Node → m Node
  | .bgp elements => return .bgp (← Element.mapAllNodesM f elements)
  | .join l r => return .join (← f l) (← f r)
  | .leftJoin l r none => return .leftJoin (← f l) (← f r) none
  | .leftJoin l r (some e) =>
    return .leftJoin (← f l) (← f r) (some (← e.mapPatternsM f))
  | .union l r => return .union (← f l) (← f r)
  | .minus l r => return .minus (← f l) (← f r)
  | .existsJoin l r negated => return .existsJoin (← f l) (← f r) negated
  | .filter inner e => return .filter (← f inner) (← e.mapPatternsM f)
  | .extend inner v e => return .extend (← f inner) v (← e.mapPatternsM f)
  | .group inner keys columns => return .group (← f inner) keys columns
  | .having inner e => return .having (← f inner) (← e.mapPatternsM f)
  | .orderBy inner keys =>
    return .orderBy (← f inner) (← OrderKey.mapAllPatternsM f keys)
  | .distinct inner => return .distinct (← f inner)
  | .reduced inner => return .reduced (← f inner)
  | .project inner vs => return .project (← f inner) vs
  | .slice inner offset count => return .slice (← f inner) offset count
  | .graph inner name => return .graph (← f inner) name
  | .service name vs silent pattern => pure (.service name vs silent pattern)
  | .ask inner => return .ask (← f inner)
  | .values vs rows => pure (.values vs rows)
  | .pathSearch s search o => pure (.pathSearch s search o)
  | .limit inner count => return .limit (← f inner) count
  | .custom name vs children => pure (.custom name vs children)

/-! ## Bottom-up -/

mutual

/-- Applies `f` to every node of a tree, to a node after its inputs. -/
def Node.mapUpM (f : Node → m Node) : Node → m Node
  | .bgp elements => do f (.bgp (← Element.mapAllUpM f elements))
  | .join l r => do f (.join (← l.mapUpM f) (← r.mapUpM f))
  | .leftJoin l r none => do
    f (.leftJoin (← l.mapUpM f) (← r.mapUpM f) none)
  | .leftJoin l r (some e) => do
    f (.leftJoin (← l.mapUpM f) (← r.mapUpM f)
      (some (← e.mapUpM f)))
  | .union l r => do f (.union (← l.mapUpM f) (← r.mapUpM f))
  | .minus l r => do f (.minus (← l.mapUpM f) (← r.mapUpM f))
  | .existsJoin l r negated => do
    f (.existsJoin (← l.mapUpM f) (← r.mapUpM f) negated)
  | .filter inner e => do
    f (.filter (← inner.mapUpM f) (← e.mapUpM f))
  | .extend inner v e => do
    f (.extend (← inner.mapUpM f) v (← e.mapUpM f))
  | .group inner keys columns => do
    f (.group (← inner.mapUpM f) keys columns)
  | .having inner e => do
    f (.having (← inner.mapUpM f) (← e.mapUpM f))
  | .orderBy inner keys => do
    f (.orderBy (← inner.mapUpM f) (← OrderKey.mapAllUpM f keys))
  | .distinct inner => do f (.distinct (← inner.mapUpM f))
  | .reduced inner => do f (.reduced (← inner.mapUpM f))
  | .project inner vs => do f (.project (← inner.mapUpM f) vs)
  | .slice inner offset count => do
    f (.slice (← inner.mapUpM f) offset count)
  | .graph inner name => do f (.graph (← inner.mapUpM f) name)
  | .service name vs silent pattern => f (.service name vs silent pattern)
  | .ask inner => do f (.ask (← inner.mapUpM f))
  | .values vs rows => f (.values vs rows)
  | .pathSearch s search o => f (.pathSearch s search o)
  | .limit inner count => do f (.limit (← inner.mapUpM f) count)
  | .custom name vs children => f (.custom name vs children)

/-- Applies `f` to every node of the patterns inside an expression. -/
def Expr.mapUpM (f : Node → m Node) : Expr → m Expr
  | .constant t => pure (.constant t)
  | .var v => pure (.var v)
  | .bound v => pure (.bound v)
  | .unary op e => return .unary op (← e.mapUpM f)
  | .binary op l r => return .binary op (← l.mapUpM f) (← r.mapUpM f)
  | .isIn e es => return .isIn (← e.mapUpM f) (← Expr.mapAllUpM f es)
  | .cond c t e =>
    return .cond (← c.mapUpM f) (← t.mapUpM f) (← e.mapUpM f)
  | .coalesce es => return .coalesce (← Expr.mapAllUpM f es)
  | .call g es => return .call g (← Expr.mapAllUpM f es)
  | .hasMatch pattern => return .hasMatch (← pattern.mapUpM f)

def Expr.mapAllUpM (f : Node → m Node) : List Expr → m (List Expr)
  | [] => pure []
  | e :: rest => return (← e.mapUpM f) :: (← Expr.mapAllUpM f rest)

def OrderKey.mapAllUpM (f : Node → m Node) :
    List OrderKey → m (List OrderKey)
  | [] => pure []
  | .sortBy e descending :: rest =>
    return .sortBy (← e.mapUpM f) descending ::
      (← OrderKey.mapAllUpM f rest)

def Element.mapAllUpM (f : Node → m Node) :
    List Element → m (List Element)
  | [] => pure []
  | .subQuery query :: rest =>
    return .subQuery (← query.mapUpM f) :: (← Element.mapAllUpM f rest)
  | .assign v e :: rest =>
    return .assign v (← e.mapUpM f) :: (← Element.mapAllUpM f rest)
  | .filter e :: rest =>
    return .filter (← e.mapUpM f) :: (← Element.mapAllUpM f rest)
  | .triple pattern :: rest =>
    return .triple pattern :: (← Element.mapAllUpM f rest)
  | .path s p o :: rest =>
    return .path s p o :: (← Element.mapAllUpM f rest)

end

/-- Applies a function without effects to every node, bottom-up. -/
def Node.mapUp (f : Node → Node) (n : Node) : Node :=
  Id.run (n.mapUpM fun n => pure (f n))

/-! ## Top-down -/

/-- Applies `f` to the nodes of the first `levels` levels of a tree, to a node
before its new inputs. -/
def Node.mapLevelsM (f : Node → m Node) : Nat → Node → m Node
  | 0, n => pure n
  | levels + 1, n => do (← f n).mapChildrenM (Node.mapLevelsM f levels)

mutual

/-- The number of levels of a tree. -/
def Node.levels : Node → Nat
  | .bgp elements => Element.levelsOfAll elements + 1
  | .join l r | .union l r | .minus l r | .existsJoin l r _
  | .leftJoin l r none => max l.levels r.levels + 1
  | .leftJoin l r (some e) => max (max l.levels r.levels) e.levels + 1
  | .filter inner e | .extend inner _ e | .having inner e =>
    max inner.levels e.levels + 1
  | .orderBy inner keys => max inner.levels (OrderKey.levelsOfAll keys) + 1
  | .group inner _ _ | .distinct inner | .reduced inner | .project inner _
  | .slice inner _ _ | .graph inner _ | .ask inner | .limit inner _ =>
    inner.levels + 1
  | .service _ _ _ _ | .values _ _ | .pathSearch _ _ _ | .custom _ _ _ => 1

/-- The number of levels of the patterns inside an expression. -/
def Expr.levels : Expr → Nat
  | .constant _ | .var _ | .bound _ => 0
  | .unary _ e => e.levels
  | .binary _ l r => max l.levels r.levels
  | .isIn e es => max e.levels (Expr.levelsOfAll es)
  | .cond c t e => max (max c.levels t.levels) e.levels
  | .coalesce es | .call _ es => Expr.levelsOfAll es
  | .hasMatch pattern => pattern.levels

def Expr.levelsOfAll : List Expr → Nat
  | [] => 0
  | e :: rest => max e.levels (Expr.levelsOfAll rest)

def OrderKey.levelsOfAll : List OrderKey → Nat
  | [] => 0
  | .sortBy e _ :: rest => max e.levels (OrderKey.levelsOfAll rest)

def Element.levelsOfAll : List Element → Nat
  | [] => 0
  | .subQuery query :: rest => max query.levels (Element.levelsOfAll rest)
  | .assign _ e :: rest | .filter e :: rest =>
    max e.levels (Element.levelsOfAll rest)
  | .triple _ :: rest | .path _ _ _ :: rest => Element.levelsOfAll rest

end

/-- Applies `f` to every node of a tree, to a node before its new inputs. Nodes that `f`
puts below the last level of the tree are left alone. -/
def Node.mapDownM (f : Node → m Node) (n : Node) : m Node :=
  n.mapLevelsM f n.levels

end SparqlAlgebra
