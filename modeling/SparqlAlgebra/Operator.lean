/-!
# Operators of expressions

What an expression does with one or two operands, both in a query and in the algebra.
-/

namespace SparqlAlgebra

/-- Operators of one operand. -/
inductive UnaryOp where
  | not | plus | minus
deriving DecidableEq, Inhabited

/-- Operators of two operands. -/
inductive BinaryOp where
  | or | and | equal | sameTerm
  | greater | greaterOrEqual | less | lessOrEqual
  | add | subtract | multiply | divide
deriving DecidableEq, Inhabited

end SparqlAlgebra
