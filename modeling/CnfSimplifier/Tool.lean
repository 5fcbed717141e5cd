import CnfSimplifier.Engine
import CnfSimplifier.Budget

/-!
# Tools

A tool is a technique at work: its budget, the number of its runs, and whatever
it keeps from one run to the next. Its operations work on the tool and the engine
together; operations of the engine alone can be used among them as they are.
-/
namespace CnfSimplifier

/-- A technique with its budget and its own state of type `τ`. -/
structure Tool (τ : Type) where
  budget : Budget := {}
  /-- The number of runs so far. -/
  runs : Nat := 0
  own : τ

/-- A computation of a tool on the engine. -/
abbrev Work (τ α : Type) : Type := Run (Tool τ × Engine) α

instance {σ : Type} : MonadLift (Run Engine) (Run (σ × Engine)) := ⟨Run.onSecond⟩

namespace Work

variable {τ α : Type}

/-- Read the tool's own state. -/
def own : Work τ τ := fun (tool, engine) => .done tool.own (tool, engine)

/-- Change the tool's own state. -/
@[inline]
def modifyOwn (change : τ → τ) : Work τ Unit := fun (tool, engine) =>
  .done () ({ tool with own := change tool.own }, engine)

/-- Read the budget. -/
def budget : Work τ Budget := fun (tool, engine) => .done tool.budget (tool, engine)

/-- Spend steps; the answer says whether to go on. -/
def spend (steps : Nat) : Work τ Bool := fun (tool, engine) =>
  let (goOn, budget) := tool.budget.spend engine.interrupted (UInt64.ofNat steps)
  .done goOn ({ tool with budget := budget }, engine)

/-- Count a new run; the answer is its number. -/
def beginRun : Work τ Nat := fun (tool, engine) =>
  .done (tool.runs + 1) ({ tool with runs := tool.runs + 1 }, engine)

/-- Start the budget with a step limit. -/
def startBudget (limit : UInt64) : Work τ Unit := fun (tool, engine) =>
  .done () ({ tool with budget := tool.budget.start limit }, engine)

/-- Run a technique once: count the run, start the budget with the limit that the
settings give, run the body, tell what came of it, and draw the conclusion. The
notice is made from the number of the run, the engine before the body, and the
budget and the engine after it. -/
def process (base : Settings → UInt64) (body : Work τ Unit)
    (notice : Nat → Engine → Budget → Engine → Notice) : Work τ Status := do
  let run ← beginRun
  let before ← (get : Run Engine Engine)
  startBudget (before.stepLimit (base before.settings))
  let result ← body.attempt
  let budget ← budget
  let after ← (get : Run Engine Engine)
  Engine.tell (notice run before budget after)
  Engine.conclude result

end Work

end CnfSimplifier
