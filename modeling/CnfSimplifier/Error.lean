import CnfSimplifier.Literal
import CnfSimplifier.Handle

/-!
# Refusals and verdicts

The causes for which an operation can refuse to go on. The first three are not
failures: they say that the formula has no model. Every cause has one fixed
message.
-/
namespace CnfSimplifier

/-- Why an operation stopped. -/
inductive Error where
  /-- Every literal of a clause is false at the root. -/
  | emptyClause
  /-- Propagation at the root met a falsified clause. -/
  | inconsistent
  /-- A root assignment contradicts an earlier one. -/
  | rootConflict (literal : Literal)
  /-- A clause contains a number that is no literal. -/
  | invalidLiteral
  /-- A variable lies outside the formula, or is no longer part of it. -/
  | outOfRange
  /-- A clause handle was used after a compaction. -/
  | staleHandle (handle : Handle)
  /-- The interrupt flag was raised. -/
  | interrupted
  /-- The proof could not be written. -/
  | proofOutput
  /-- The engine found one of its own invariants broken. -/
  | invariantBroken (message : String)
deriving DecidableEq

namespace Error

/-- The message of a cause. -/
def message : Error → String
  | .emptyClause => "an empty clause was derived"
  | .inconsistent => "the formula became inconsistent"
  | .rootConflict literal => "root level conflict on " ++ literal.text
  | .invalidLiteral => "invalid literal"
  | .outOfRange => "var index out of range"
  | .staleHandle handle => "stale clause handle " ++ handle.text
  | .interrupted => "interrupted"
  | .proofOutput => "I/O error on proof output"
  | .invariantBroken message => "internal invariant violation: " ++ message

/-- Whether a cause proves that the formula has no model. -/
def isUnsat : Error → Bool
  | .emptyClause | .inconsistent | .rootConflict _ => true
  | _ => false

end Error

/-- What is known of a formula after a run. -/
inductive Status where
  /-- No clause is left: every extension of the root assignment is a model. -/
  | sat
  /-- The empty clause was derived. -/
  | unsat
  /-- Open. -/
  | unknown
deriving DecidableEq

namespace Status

/-- The written form of a status. -/
def text : Status → String
  | .sat => "SATISFIABLE"
  | .unsat => "UNSATISFIABLE"
  | .unknown => "UNKNOWN"

/-- What a refusal, or its absence, says about the formula on its own. -/
def ofRefusal : Option Error → Status
  | none => .unknown
  | some cause => if cause.isUnsat then .unsat else .unknown

end Status

end CnfSimplifier
