import CnfSimplifier.Units
import CnfSimplifier.TwoSat
import CnfSimplifier.Equivalence
import CnfSimplifier.Probing
import CnfSimplifier.BatchElimination
import CnfSimplifier.Blocked
import CnfSimplifier.Numbering

/-!
# The tools of a simplifier

One tool of each kind, with the operations that concern all of them.
-/
namespace CnfSimplifier

/-- One tool of each kind. -/
structure Toolbox where
  units : Tool Unit := { own := () }
  twoSat : Tool Unit := { own := () }
  subsumption : Tool Subsumer := { own := {} }
  equivalences : Tool Unit := { own := () }
  probing : Tool Unit := { own := () }
  elimination : Tool Eliminator := { own := {} }
  batchElimination : Tool BatchEliminator := { own := { own := {} } }
  blockedClauses : Tool BlockedQueue := { own := [] }
  renumbering : Tool Numbering := { own := {} }

namespace Toolbox

/-- Fresh tools for a number of variables. -/
def ofVars (numVars : Nat) : Toolbox :=
  { elimination := { own := Eliminator.ofVars numVars } }

/-- Tell all tools of an event. -/
def handle (event : Event) (tools : Toolbox) : Toolbox :=
  let elimination := tools.elimination
  { tools with elimination := { elimination with own := elimination.own.handle event } }

/-- The budget of a tool. -/
def budget (tools : Toolbox) : Technique → Budget
  | .units => tools.units.budget
  | .twoSat => tools.twoSat.budget
  | .subsumption => tools.subsumption.budget
  | .equivalences => tools.equivalences.budget
  | .probing => tools.probing.budget
  | .elimination => tools.elimination.budget
  | .batchElimination => tools.batchElimination.budget
  | .blockedClauses => tools.blockedClauses.budget
  | .renumbering => tools.renumbering.budget

/-- Change the budget of a tool. -/
def modifyBudget (change : Budget → Budget) (technique : Technique) (tools : Toolbox) : Toolbox :=
  match technique with
  | .units => { tools with units := renew tools.units }
  | .twoSat => { tools with twoSat := renew tools.twoSat }
  | .subsumption => { tools with subsumption := renew tools.subsumption }
  | .equivalences => { tools with equivalences := renew tools.equivalences }
  | .probing => { tools with probing := renew tools.probing }
  | .elimination => { tools with elimination := renew tools.elimination }
  | .batchElimination => { tools with batchElimination := renew tools.batchElimination }
  | .blockedClauses => { tools with blockedClauses := renew tools.blockedClauses }
  | .renumbering => { tools with renumbering := renew tools.renumbering }
where
  /-- Change the budget of one tool. -/
  renew {τ : Type} (tool : Tool τ) : Tool τ := { tool with budget := change tool.budget }

/-- Use one tool of the box on the engine. -/
def use {τ α : Type} (get : Toolbox → Tool τ) (put : Tool τ → Toolbox → Toolbox)
    (body : Work τ α) : Run (Toolbox × Engine) α := fun (tools, engine) =>
  match body (get tools, engine) with
  | .done value (tool, engine) => .done value (put tool tools, engine)
  | .failed cause (tool, engine) => .failed cause (put tool tools, engine)
  | .stuck why => .stuck why

/-- Use the tool for subsumption. -/
def useSubsumption {α : Type} (body : Work Subsumer α) : Run (Toolbox × Engine) α :=
  use subsumption (fun tool tools => { tools with subsumption := tool }) body

/-- Use the tool for elimination. -/
def useElimination {α : Type} (body : Work Eliminator α) : Run (Toolbox × Engine) α :=
  use elimination (fun tool tools => { tools with elimination := tool }) body

/-- Use the tool for numbering. -/
def useRenumbering {α : Type} (body : Work Numbering α) : Run (Toolbox × Engine) α :=
  use renumbering (fun tool tools => { tools with renumbering := tool }) body

/-- Run a technique once. -/
def process : Technique → Run (Toolbox × Engine) Status
  | .units => use units (fun tool tools => { tools with units := tool }) Units.process
  | .twoSat => use twoSat (fun tool tools => { tools with twoSat := tool }) TwoSat.process
  | .subsumption => useSubsumption Subsumer.process
  | .equivalences =>
    use equivalences (fun tool tools => { tools with equivalences := tool }) Equivalence.process
  | .probing => use probing (fun tool tools => { tools with probing := tool }) Probing.process
  | .elimination => useElimination Eliminator.process
  | .batchElimination =>
    use batchElimination (fun tool tools => { tools with batchElimination := tool })
      BatchEliminator.process
  | .blockedClauses =>
    use blockedClauses (fun tool tools => { tools with blockedClauses := tool })
      BlockedQueue.process
  | .renumbering => useRenumbering Numbering.process

/-- Let a tool forget what is bound to a run. -/
def reset (technique : Technique) (tools : Toolbox) : Option Toolbox :=
  match technique with
  | .subsumption =>
    let tool := tools.subsumption
    some { tools with subsumption := { tool with own := tool.own.reset } }
  | .elimination => do
    let tool := tools.elimination
    let own ← tool.own.reset
    return { tools with elimination := { tool with own := own } }
  | .batchElimination =>
    let tool := tools.batchElimination
    let subsumer := tool.own
    some { tools with
      batchElimination := { tool with own := { subsumer with own := subsumer.own.reset } } }
  | .blockedClauses =>
    let tool := tools.blockedClauses
    some { tools with blockedClauses := { tool with own := [] } }
  | _ => some tools

/-- Let a tool forget everything it remembers. A numbering goes only here. -/
def forget (technique : Technique) (tools : Toolbox) : Option Toolbox :=
  match technique with
  | .renumbering =>
    let tool := tools.renumbering
    some { tools with renumbering := { tool with own := {} } }
  | _ => tools.reset technique

/-- The techniques that run in passes. -/
def passes : List Technique :=
  [.units, .twoSat, .subsumption, .equivalences, .probing, .elimination, .batchElimination,
    .blockedClauses]

/-- Let all tools that run in passes forget everything. -/
def forgetAll (tools : Toolbox) : Option Toolbox :=
  passes.foldlM (fun tools technique => tools.forget technique) tools

/-- Carry the handles of all tools over a compaction. -/
def relocate (relocation : Relocation) (tools : Toolbox) : Option Toolbox := do
  let subsumption := tools.subsumption
  let elimination := tools.elimination
  let batch := tools.batchElimination
  let batchSubsumer := batch.own
  let subsumer ← subsumption.own.relocate relocation
  let eliminator ← elimination.own.relocate relocation
  let batchOwn ← batchSubsumer.own.relocate relocation
  return { tools with
    subsumption := { subsumption with own := subsumer }
    elimination := { elimination with own := eliminator }
    batchElimination := { batch with own := { batchSubsumer with own := batchOwn } } }

end Toolbox

end CnfSimplifier
