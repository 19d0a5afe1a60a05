import SparqlAlgebra.Term

/-!
# Errors of a query

Why the evaluation of a query can fail, and the message each cause is reported
with. Errors of expressions are absorbable: conditions, alternatives and
aggregates can go on after them. All other errors end the query.
-/

namespace SparqlAlgebra

/-- The cause of a failed evaluation. -/
inductive QueryError where
  /-- The dataset could not be read. -/
  | storage (text : String)
  /-- The time allowed for the query is over. -/
  | timeout
  | unboundVariable (v : Var)
  | expression (text : String)
  | unknownFunction (name : Iri)
  | graphDoesNotExist (name : Iri)
  | variableAlreadyBound (v : Var)
  /-- A service answered with a failure. -/
  | service (text : String)
  /-- The name of a service is an unbound variable. -/
  | unboundService
  | unsupportedService (name : Iri)
  /-- Somebody panicked who held the lock of the dataset for writing. -/
  | datasetPoisoned
  | notImplemented (text : String)
  | internal (text : String)
deriving DecidableEq, Inhabited

namespace QueryError

/-- Whether the error is one of an expression, which conditions, alternatives
and aggregates absorb. -/
def isAbsorbable : QueryError → Bool
  | unboundVariable _ | expression _ | unknownFunction _ => true
  | _ => false

/-- The error of a function that rejects its arguments. -/
def invalidArgument : QueryError :=
  expression "A function received an invalid argument"

/-- The message of an error. A timeout has none. -/
def message? : QueryError → Option String
  | storage text => some text
  | timeout => none
  | unboundVariable v => some ("The variable " ++ v.render ++ " is unbound")
  | expression text =>
    some ("The expression could not be evaluated: " ++ text)
  | unknownFunction name =>
    some ("The function " ++ name.render ++ " is not supported")
  | graphDoesNotExist name =>
    some ("The graph " ++ name.render ++ " does not exist")
  | variableAlreadyBound v =>
    some ("The variable " ++ v.render ++ " is already bound")
  | service text => some text
  | unboundService =>
    some "The variable encoding the service name is unbound"
  | unsupportedService name =>
    some ("The service " ++ name.render ++ " is not supported")
  | datasetPoisoned => some "The dataset lock has been poisoned"
  | notImplemented text =>
    some ("A feature has not yet been implemented: " ++ text)
  | internal text =>
    some ("An internal error that likely indicates towards a bug in RdfEval: "
      ++ text)

end QueryError

end SparqlAlgebra
