import CnfSimplifier.Literal

/-!
# Events

Changes to the set of variables or to their standing. The parts of the engine
that keep tables over variables are told of each.
-/
namespace CnfSimplifier

/-- A change that concerns the variables. -/
inductive Event where
  /-- A variable got a value at the root. -/
  | asserted (name : Nat)
  /-- A variable was eliminated. -/
  | eliminated (name : Nat)
  /-- There is one more variable. -/
  | newVar
  /-- What was learnt about the formula so far is to be forgotten. -/
  | reinitialized
  /-- A variable was replaced by its representative. -/
  | substituted (name : Nat)
deriving DecidableEq

end CnfSimplifier
