import SparqlAlgebra.Algebra.Structure

/-!
# The text of trees

One line for each node, indented by its depth, and expressions on one line.
-/

namespace SparqlAlgebra

/-! ## Expressions -/

/-- The sign of an operator between its operands. -/
def BinaryOp.sign : BinaryOp → String
  | or => "||"
  | and => "&&"
  | equal => "="
  | sameTerm => "sameTerm"
  | greater => ">"
  | greaterOrEqual => ">="
  | less => "<"
  | lessOrEqual => "<="
  | add => "+"
  | subtract => "-"
  | multiply => "*"
  | divide => "/"

def UnaryOp.sign : UnaryOp → String
  | not => "!"
  | plus => "+"
  | minus => "-"

/-- An operator between its operands; the identity of terms is written as a
function. -/
def BinaryOp.render (op : BinaryOp) (left right : String) : String :=
  match op with
  | sameTerm => "sameTerm(" ++ left ++ ", " ++ right ++ ")"
  | op => "(" ++ left ++ " " ++ op.sign ++ " " ++ right ++ ")"

mutual

def Expr.render : Expr → String
  | .constant t => t.render
  | .var v => v.render
  | .bound v => "BOUND(" ++ v.render ++ ")"
  | .unary op e => op.sign ++ e.render
  | .binary op l r => op.render l.render r.render
  | .isIn e es =>
    "(" ++ e.render ++ " IN (" ++ joinTexts ", " (Expr.renderAll es) ++ "))"
  | .cond c t e =>
    "IF(" ++ c.render ++ ", " ++ t.render ++ ", " ++ e.render ++ ")"
  | .coalesce es => "COALESCE(" ++ joinTexts ", " (Expr.renderAll es) ++ ")"
  | .call f es => f.render ++ "(" ++ joinTexts ", " (Expr.renderAll es) ++ ")"
  | .hasMatch pattern => "EXISTS(" ++ pattern.name ++ ")"

def Expr.renderAll : List Expr → List String
  | [] => []
  | e :: rest => e.render :: Expr.renderAll rest

end

private def distinctMark (distinct : Bool) : String :=
  if distinct then "DISTINCT " else ""

def GroupValue.render : GroupValue → String
  | .countRows v d => v.render ++ " := COUNT(" ++ distinctMark d ++ "*)"
  | .apply v f e d =>
    v.render ++ " := " ++ f.render ++ "(" ++ distinctMark d ++ e.render ++ ")"

def OrderKey.render : OrderKey → String
  | .sortBy e true => "DESC(" ++ e.render ++ ")"
  | .sortBy e false => "ASC(" ++ e.render ++ ")"

/-! ## Lines -/

def Element.render : Element → String
  | .triple pattern => pattern.render
  | .path s p o => "Path: " ++ joinTexts " " [s.render, p.render, o.render]
  | .assign v e => "Bind: " ++ v.render ++ " := " ++ e.render
  | .subQuery query => "SubQuery: " ++ query.name
  | .filter e => "Filter: " ++ e.render

private def varTexts (vs : List Var) : String := joinTexts " " (vs.map Var.render)

/-- What a path pattern looks for, between its ends. -/
def PathSearch.render : PathSearch → List String
  | .zeroLength => []
  | .zeroOrMore p | .oneOrMore p => [p.render]
  | .negatedSet forward backward => [Path.renderNegatedSet forward backward]

/-- The line of a node: its name and what it does to its inputs. -/
def Node.line (n : Node) : String :=
  match n with
  | .leftJoin _ _ (some e) => "LeftJoin: " ++ e.render
  | .filter _ e => "Filter: " ++ e.render
  | .extend _ v e => "Extend: " ++ v.render ++ " := " ++ e.render
  | .group _ keys columns =>
    joinTexts ", " (("Group: [" ++ varTexts keys ++ "]") ::
      columns.map GroupValue.render)
  | .having _ e => "Having: " ++ e.render
  | .orderBy _ keys => "OrderBy: " ++ joinTexts ", " (keys.map OrderKey.render)
  | .project _ vs => "Project: " ++ varTexts vs
  | .slice _ offset (some count) =>
    "Slice: offset=" ++ toString offset ++ ", limit=" ++ toString count
  | .slice _ offset none => "Slice: offset=" ++ toString offset
  | .graph _ name => "Graph: " ++ name.render
  | .service name vs silent _ =>
    "Service: " ++ name.render ++ " [" ++ varTexts vs ++ "]" ++
      (if silent then " SILENT" else "")
  | .values vs rows =>
    "Values: [" ++ varTexts vs ++ "] (" ++ toString rows.length ++ " rows)"
  | .pathSearch s search o =>
    n.name ++ ": " ++ joinTexts " " (s.render :: search.render ++ [o.render])
  | .limit _ count => "Limit: " ++ toString count
  | n => n.name

/-- A line at a depth. -/
private def indented (depth : Nat) (text : String) : String :=
  String.ofList (List.replicate (2 * depth) ' ') ++ text ++ "\n"

mutual

/-- The lines of a tree whose root is at a depth. -/
def Node.renderAt (depth : Nat) : Node → String
  | n@(.bgp elements) =>
    indented depth n.line ++ Element.renderAllAt (depth + 1) elements
  | n@(.join l r) | n@(.leftJoin l r _) | n@(.union l r) | n@(.minus l r)
  | n@(.existsJoin l r _) =>
    indented depth n.line ++ l.renderAt (depth + 1) ++ r.renderAt (depth + 1)
  | n@(.filter inner _) | n@(.extend inner _ _) | n@(.group inner _ _)
  | n@(.having inner _) | n@(.orderBy inner _) | n@(.distinct inner)
  | n@(.reduced inner) | n@(.project inner _) | n@(.slice inner _ _)
  | n@(.graph inner _) | n@(.ask inner) | n@(.limit inner _) =>
    indented depth n.line ++ inner.renderAt (depth + 1)
  | n@(.service _ _ _ _) | n@(.values _ _) | n@(.pathSearch _ _ _) =>
    indented depth n.line
  | n@(.custom _ _ children) =>
    indented depth n.line ++ Node.renderAllAt (depth + 1) children

def Node.renderAllAt (depth : Nat) : List Node → String
  | [] => ""
  | n :: rest => n.renderAt depth ++ Node.renderAllAt depth rest

def Element.renderAllAt (depth : Nat) : List Element → String
  | [] => ""
  | .subQuery query :: rest =>
    indented depth "SubQuery" ++ query.renderAt (depth + 1) ++
      Element.renderAllAt depth rest
  | e :: rest => indented depth e.render ++ Element.renderAllAt depth rest

end

/-- A tree as text. -/
def Node.render (n : Node) : String := n.renderAt 0

end SparqlAlgebra
