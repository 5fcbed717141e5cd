/-!
# The dimensions of a formula

The number of variables and clauses of a list of clauses, as a header states it.
-/
namespace CnfSimplifier

/-- How many variables and clauses a formula has. -/
structure Dimensions where
  numVars : Nat := 0
  clauses : Nat := 0
deriving DecidableEq

namespace Dimensions

/-- The dimensions of clauses given as signed integers; the greatest absolute
value is the number of variables. -/
def ofClauses (clauses : List (List Int)) : Dimensions where
  numVars := clauses.foldl (fun top clause =>
    clause.foldl (fun top literal => max top literal.natAbs) top) 0
  clauses := clauses.length

/-- The written form of dimensions, such as `CNF(3, 5)`. -/
def text (dimensions : Dimensions) : String :=
  "CNF(" ++ toString dimensions.numVars ++ ", " ++ toString dimensions.clauses ++ ")"

end Dimensions

end CnfSimplifier
