/-!
# Techniques

The simplification techniques by name.
-/
namespace CnfSimplifier

/-- A way to simplify a formula, or to number what is left of it. -/
inductive Technique where
  | units
  | twoSat
  | subsumption
  | equivalences
  | probing
  | elimination
  | batchElimination
  | blockedClauses
  | renumbering
deriving DecidableEq

/-- The name of a technique in messages. -/
def Technique.text : Technique → String
  | .units => "unit propagation"
  | .twoSat => "2-SAT"
  | .subsumption => "subsumption"
  | .equivalences => "equivalence elimination"
  | .probing => "failed literal probing"
  | .elimination => "variable elimination"
  | .batchElimination => "parallel variable elimination"
  | .blockedClauses => "blocked clause elimination"
  | .renumbering => "densing"

end CnfSimplifier
