import CnfSimplifier.Tool

/-!
# Unit propagation as a technique
-/
namespace CnfSimplifier.Units

/-- Apply the root assignment to the clauses once. There is no step limit. -/
def process : Work Unit Status := do
  let run ← Work.beginRun
  Engine.cancelToRoot
  let before ← Engine.look fun engine => engine.trail.literals.size
  let result ← (Engine.propagateUnits.attempt : Run Engine (Except Error Unit))
  let after ← Engine.look fun engine => engine.trail.literals.size
  Engine.tell (.unitsApplied run (after - before))
  Engine.conclude result

end CnfSimplifier.Units
