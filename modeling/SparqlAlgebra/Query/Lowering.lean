import SparqlAlgebra.Algebra.Variables
import SparqlAlgebra.Error
import SparqlAlgebra.Query

/-!
# From queries to the algebra

Every form of pattern becomes an operator. Triples, simple paths, assignments
and filters of a group are gathered in one basic graph pattern where that does
not change what a filter sees; conditions that consist of the test for a match
become joins, and conditions on groupings become operators of their own.
-/

namespace SparqlAlgebra

namespace Query

/-! ## Terms and paths -/

/-- The variable that stands for a blank node of a pattern. -/
def blankVar (b : BlankNode) : Var := ⟨"__bnode_" ++ b.label⟩

/-- A position with a variable in the place of a blank node. -/
def lowerPosition : Position → Position
  | .term (.blank b) => .var (blankVar b)
  | p => p

def lowerTriple (t : TriplePattern) : TriplePattern :=
  ⟨lowerPosition t.subject, t.predicate, lowerPosition t.object⟩

/-- The alternative of two paths. Two negated sets of opposite directions are
one set. -/
def alternativePath : SparqlAlgebra.Path → SparqlAlgebra.Path →
    SparqlAlgebra.Path
  | .negatedSet forward [], .negatedSet [] backward =>
    .negatedSet forward backward
  | p, q => .alternative p q

def Path.lower : Path → SparqlAlgebra.Path
  | predicate p => .property p false
  | reverse inner => inner.lower.inverted
  | sequence p q => .sequence p.lower q.lower
  | alternative p q => alternativePath p.lower q.lower
  | zeroOrMore inner => .zeroOrMore inner.lower
  | oneOrMore inner => .oneOrMore inner.lower
  | zeroOrOne inner => .zeroOrOne inner.lower
  | negatedSet ps => .negatedSet ps []

/-- The element of a path between two positions. A single edge is a triple. -/
def pathElement (s : Position) (path : SparqlAlgebra.Path) (o : Position) :
    Element :=
  match path with
  | .property p false => .triple ⟨s, .term (.iri p), o⟩
  | .property p true => .triple ⟨o, .term (.iri p), s⟩
  | path => .path s path o

/-- The node of a path pattern. Closures and negated sets have nodes of their
own. -/
def lowerPathPattern (s : Position) (path : Path) (o : Position) : Node :=
  match path with
  | .zeroOrMore inner => .pathSearch s (.zeroOrMore inner.lower) o
  | .oneOrMore inner => .pathSearch s (.oneOrMore inner.lower) o
  | .negatedSet ps => .pathSearch s (.negatedSet ps []) o
  | path => .bgp [pathElement s path.lower o]

/-! ## Functions -/

/-- The name under which a function is evaluated. Datatypes name casts;
functions on dates and times are not supported. -/
def Function.lower : Function → Except QueryError FunctionName
  | function (.builtin f) => .ok (.builtin f)
  | function (.custom name) =>
    .ok (match Builtin.ofDatatype? name with
      | some f => .builtin f
      | none => .custom name)
  | date f =>
    .error (.notImplemented
      ("The date and time function " ++ f.render ++ " is not supported."))

/-! ## Groups of patterns -/

/-- Whether every filter among the elements only uses variables that the
elements bind. A filter must not see variables of neighbouring groups. -/
def filtersAreClosed (elements : List Element) : Bool :=
  let bound := Element.boundByAll elements
  elements.all fun
    | .filter e => e.vars.all (bound.contains ·)
    | _ => true

/-- Whether a node is a query of its own. -/
def isSubQuery : Node → Bool
  | .project _ _ | .distinct _ | .reduced _ | .slice _ _ _ => true
  | _ => false

/-- The join of two nodes, as one basic graph pattern where possible. -/
def joinNodes : Node → Node → Node
  | .bgp l, .bgp r =>
    if filtersAreClosed l && filtersAreClosed r then .bgp (l ++ r)
    else .join (.bgp l) (.bgp r)
  | .bgp l, r =>
    if filtersAreClosed l && isSubQuery r then .bgp (l ++ [.subQuery r])
    else .join (.bgp l) r
  | l, r => .join l r

/-- Whether the solutions of a node are those of a grouping. -/
def isGrouping : Node → Bool
  | .group _ _ _ | .having _ _ => true
  | .extend inner _ _ => isGrouping inner
  | _ => false

/-- A node with a condition on its solutions. -/
def filterNode (n : Node) (condition : Expr) : Node :=
  match n with
  | .bgp elements => .bgp (elements ++ [.filter condition])
  | n => if isGrouping n then .having n condition else .filter n condition

/-- A node with a further variable. -/
def extendNode (n : Node) (target : Var) (value : Expr) : Node :=
  match n with
  | .bgp elements => .bgp (elements ++ [.assign target value])
  | n => .extend n target value

/-! ## Patterns and expressions -/

mutual

def Pattern.lower : Pattern → Except QueryError Node
  | .bgp patterns => .ok (.bgp (patterns.map fun t => .triple (lowerTriple t)))
  | .path s p o => .ok (lowerPathPattern (lowerPosition s) p (lowerPosition o))
  | .join l r => return joinNodes (← l.lower) (← r.lower)
  | .leftJoin l r none => return .leftJoin (← l.lower) (← r.lower) none
  | .leftJoin l r (some e) =>
    return .leftJoin (← l.lower) (← r.lower) (some (← e.lower))
  | .filter inner (.hasMatch pattern) =>
    return .existsJoin (← inner.lower) (← pattern.lower) false
  | .filter inner (.unary .not (.hasMatch pattern)) =>
    return .existsJoin (← inner.lower) (← pattern.lower) true
  | .filter inner e => return filterNode (← inner.lower) (← e.lower)
  | .union l r => return .union (← l.lower) (← r.lower)
  | .graph inner name => return .graph (← inner.lower) name
  | .extend inner v e => return extendNode (← inner.lower) v (← e.lower)
  | .minus l r => return .minus (← l.lower) (← r.lower)
  | .values vs rows => .ok (.values vs rows)
  | .orderBy inner keys =>
    return .orderBy (← inner.lower) (← OrderKey.lowerAll keys)
  | .project inner vs => return .project (← inner.lower) vs
  | .distinct inner => return .distinct (← inner.lower)
  | .reduced inner => return .reduced (← inner.lower)
  | .slice inner offset count => return .slice (← inner.lower) offset count
  | .group inner keys columns =>
    return .group (← inner.lower) keys (← GroupValue.lowerAll columns)
  | .service inner name silent =>
    return .service name (← inner.lower).vars silent inner

def Expression.lower : Expression → Except QueryError Expr
  | .constant t => .ok (.constant t)
  | .var v => .ok (.var v)
  | .bound v => .ok (.bound v)
  | .unary op e => return .unary op (← e.lower)
  | .binary op l r => return .binary op (← l.lower) (← r.lower)
  | .isIn e es => return .isIn (← e.lower) (← Expression.lowerAll es)
  | .cond c t e => return .cond (← c.lower) (← t.lower) (← e.lower)
  | .coalesce es => return .coalesce (← Expression.lowerAll es)
  | .call f es => return .call (← f.lower) (← Expression.lowerAll es)
  | .hasMatch pattern => return .hasMatch (← pattern.lower)

def Expression.lowerAll : List Expression → Except QueryError (List Expr)
  | [] => .ok []
  | e :: rest => return (← e.lower) :: (← Expression.lowerAll rest)

def OrderKey.lowerAll :
    List OrderKey → Except QueryError (List SparqlAlgebra.OrderKey)
  | [] => .ok []
  | .sortBy e descending :: rest =>
    return .sortBy (← e.lower) descending :: (← OrderKey.lowerAll rest)

def GroupValue.lowerAll :
    List GroupValue → Except QueryError (List SparqlAlgebra.GroupValue)
  | [] => .ok []
  | .countRows v d :: rest =>
    return .countRows v d :: (← GroupValue.lowerAll rest)
  | .apply v f e d :: rest =>
    return .apply v f (← e.lower) d :: (← GroupValue.lowerAll rest)

end

end Query

/-- The algebra of a query. -/
def Query.lower (q : Query) : Except QueryError AlgebraQuery := do
  let inner ← q.pattern.lower
  let root := match q.form with
    | .ask => Node.ask inner
    | _ => inner
  return ⟨root, q.form, q.dataset, q.base⟩

end SparqlAlgebra
