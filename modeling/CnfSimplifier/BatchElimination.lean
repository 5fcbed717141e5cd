import CnfSimplifier.Elimination

/-!
# Batch elimination

Variable elimination in one pass over a queue, meant for several workers. For
each variable a plan is made first: which clauses are blocked, and, if the
variable is to go, its resolvents. The plan is then carried out in one go.
Removals are lazy. After the pass the index is cleaned, the removals are made
known to the proof, and the resolvents are subsumed.

The workers take variables from one queue. A worker locks the variables of all
clauses with its variable before it makes a plan, and lets go of them when the plan
is carried out. If one of them is locked already it puts its variable off, a limited
number of times. So no other worker touches these clauses in between, and a plan is
the same whenever it is made in that time. Whatever the workers do at the same time,
it is as if plan and execution were one move, and the moves followed one another in
the order in which the plans are carried out.

What depends on timing is left to a schedule. A variable that was taken from the queue
may be worked on later than one behind it, so each move may be about any variable in
the queue. It may find a lock taken. The count of steps and the growth that was claimed
are shared, and others change them in the middle of a move. A look at the count may even
come before the steps of a move that was carried out earlier, so it may answer anything.
When the moves of the schedule are used up, what is left in the queue is served in
order. Each worker but the first then finds the queue empty or the steps used up, which
costs it a step. A single worker goes through the queue in order from the beginning.
-/
namespace CnfSimplifier

/-- The state of a pass. -/
structure Batch where
  /-- Whether a variable may still be eliminated in this pass. -/
  removable : Array Bool
  /-- The removed clauses, oldest first. -/
  deleted : Array Handle := #[]
  /-- The new clauses, oldest first. -/
  resolvents : Array Handle := #[]
  /-- The eliminated variables, oldest first. -/
  eliminated : Array Nat := #[]
  steps : UInt64 := 0
  limit : UInt64
  /-- By how much the count of steps is off at the next looks at it. -/
  rush : List UInt64 := []
  /-- By how many clauses the pass made the formula grow. -/
  grown : Nat := 0
  /-- The growth that others have claimed for the time being. -/
  claimed : Nat := 0
  /-- How many blocked clauses were removed. -/
  blocked : Nat := 0
  /-- How often a variable was put off. -/
  postponed : Nat := 0
  /-- How many variables were given up after they had been put off too often. -/
  overflow : Nat := 0

/-- What is to be done about a variable. -/
structure EliminationPlan where
  /-- The blocked clauses, each with the literal it is blocked on. -/
  blocked : List (Handle × Literal) := []
  /-- Whether the variable is to be eliminated. -/
  eliminate : Bool := false
  /-- The other irredundant clauses with the variable. -/
  positive : Array Handle
  /-- The other irredundant clauses with its complement. -/
  negative : Array Handle
  redundant : List Handle
  resolvents : Array (List Literal) := #[]

namespace Batch

/-- Spend steps; the answer says whether to go on. -/
def spend (steps : Nat) : Run (Batch × Engine) Bool := fun (batch, engine) =>
  let used := batch.steps + UInt64.ofNat steps
  .done (!engine.interrupted && used + batch.rush.headD 0 < batch.limit)
    ({ batch with steps := used, rush := batch.rush.tail }, engine)

/-- Change the state of the pass. -/
def modifyBatch (change : Batch → Batch) : Run (Batch × Engine) Unit := fun (batch, engine) =>
  .done () (change batch, engine)

/-- Read the state of the pass. -/
def getBatch : Run (Batch × Engine) Batch := fun (batch, engine) => .done batch (batch, engine)

/-- Plan the removal of the blocked clauses among the last `remaining` ones of a
side. Clauses that are planned to go do not count as partners. The answer is
`none` if the steps are used up. -/
def planBlocked (literal : Literal) (partners : List Handle) :
    Nat → Array Handle → List (Handle × Literal) →
      Run (Batch × Engine) (Option (Array Handle × List (Handle × Literal)))
  | 0, side, blocked => return some (side, blocked)
  | remaining + 1, side, blocked => do
    let place := side.size - (remaining + 1)
    let handle ← Run.access side[place]?
    let clause ← Engine.clause handle
    if ← spend (clause.size * max partners.length 1) then
      let arena ← Engine.look fun engine => engine.arena
      let others := partners.filter fun partner => !blocked.any fun (other, _) => other == partner
      if ← Run.access (Resolution.isBlocked? arena literal.var clause.literals others) then
        planBlocked literal partners remaining (side.swapIfInBounds place (side.size - 1)).pop
          (blocked ++ [(handle, literal)])
      else planBlocked literal partners remaining side blocked
    else return none

/-- Build the resolvents of one clause with the others. The answer is `none` if
one of them stands against the elimination or the steps are used up. Units are
left to other techniques. -/
def resolveAgainst (old : Nat) (pivot : Nat) (literals : List Literal) :
    List Handle → Array (List Literal) → Run (Batch × Engine) (Option (Array (List Literal)))
  | [], resolvents => return some resolvents
  | handle :: rest, resolvents => do
    let other ← Engine.clause handle
    if ← spend (literals.length + other.size) then
      let settings ← Engine.look fun engine => engine.settings
      match Resolution.resolvent? pivot literals other.literals with
      | none => resolveAgainst old pivot literals rest resolvents
      | some resolvent =>
        let resolvents := resolvents.push resolvent
        if resolvent.length < 2 || settings.tooLong resolvent.length ||
            UInt64.ofNat old + settings.growth < UInt64.ofNat resolvents.size then return none
        else resolveAgainst old pivot literals rest resolvents
    else return none

/-- Build the resolvents of the given clauses with the others. -/
def resolveAll (old : Nat) (pivot : Nat) (negative : List Handle) :
    List Handle → Array (List Literal) → Run (Batch × Engine) (Option (Array (List Literal)))
  | [], resolvents => return some resolvents
  | handle :: rest, resolvents => do
    let clause ← Engine.clause handle
    match ← resolveAgainst old pivot clause.literals negative resolvents with
    | none => return none
    | some resolvents => resolveAll old pivot negative rest resolvents

/-- Decide whether a variable is to be eliminated. -/
def planElimination (pivot : Nat) (plan : EliminationPlan) :
    Run (Batch × Engine) EliminationPlan := do
  let old := plan.positive.size + plan.negative.size
  match ← resolveAll old pivot plan.negative.toList plan.positive.toList #[] with
  | none => return plan
  | some resolvents =>
    let batch ← getBatch
    let grown := batch.grown + (resolvents.size - old)
    let settings ← Engine.look fun engine => engine.settings
    if grown + batch.claimed ≤ settings.totalGrowth.toNat then
      modifyBatch fun batch => { batch with grown := grown }
      return { plan with eliminate := true, resolvents := resolvents }
    else return plan

/-- Plan the removal of blocked clauses on both sides. -/
def planBothSides (pivot : Nat) (withPositive withNegative : List Handle)
    (plan : EliminationPlan) : Run (Batch × Engine) (Option EliminationPlan) := do
  let literal := Literal.ofVar pivot true
  match ← planBlocked literal withNegative plan.positive.size plan.positive [] with
  | none => return none
  | some (positive, blocked) =>
    match ← planBlocked literal.complement withPositive plan.negative.size plan.negative
        blocked with
    | none => return none
    | some (negative, blocked) =>
      return some { plan with positive := positive, negative := negative, blocked := blocked }

/-- Make a plan for a variable without changing anything. There is none if nothing
is to be done. -/
def plan (pivot : Nat) : Run (Batch × Engine) (Option EliminationPlan) := do
  let literal := Literal.ofVar pivot true
  let (positive, positiveRedundant) ← Eliminator.clausesWith literal
  let (negative, negativeRedundant) ← Eliminator.clausesWith literal.complement
  let arena ← Engine.look fun engine => engine.arena
  let listedPositive ← Engine.occurrences literal
  let listedNegative ← Engine.occurrences literal.complement
  let withPositive := listedPositive.filter fun handle => arena.holds handle literal
  let withNegative := listedNegative.filter fun handle => arena.holds handle literal.complement
  let settings ← Engine.look fun engine => engine.settings
  if settings.skips positive.length negative.length then return none
  else
    let plan : EliminationPlan :=
      { positive := positive.toArray
        negative := negative.toArray
        redundant := positiveRedundant ++ negativeRedundant }
    let afterBlocked ←
      if settings.blockedDuringElimination then planBothSides pivot withPositive withNegative plan
      else pure (some plan)
    match afterBlocked with
    | none => return none
    | some plan =>
      let plan ← planElimination pivot plan
      if plan.blocked.isEmpty && !plan.eliminate then return none else return some plan

/-- Record a clause with a chosen literal. -/
def recordClause (chosen : Literal) (handle : Handle) : Run Engine Unit := do
  let clause ← Engine.clause handle
  Engine.pushRecord chosen clause.literals

/-- Store a resolvent. -/
def storeResolvent (literals : List Literal) : Run (Batch × Engine) Unit := do
  Engine.prove (.added literals)
  let handle ← Engine.insertClause literals false
  let stored ← Engine.clause handle
  Engine.updateIndex fun index => index.add handle stored.literals
  modifyBatch fun batch => { batch with resolvents := batch.resolvents.push handle }

/-- Remove a clause lazily. -/
def removeLazily (handle : Handle) : Run Engine Unit := do
  let clause ← Engine.clause handle
  Engine.updateIndex fun index => index.removeLazily clause.literals
  Engine.updateArena fun arena => arena.remove handle

/-- Carry a plan out. -/
def commit (pivot : Nat) (plan : EliminationPlan) : Run (Batch × Engine) Unit := do
  let literal := Literal.ofVar pivot true
  plan.blocked.forM fun (handle, chosen) =>
    (recordClause chosen handle : Run (Batch × Engine) Unit)
  if plan.eliminate then
    plan.resolvents.toList.forM storeResolvent
    plan.positive.toList.forM fun handle =>
      (recordClause literal handle : Run (Batch × Engine) Unit)
    plan.negative.toList.forM fun handle =>
      (recordClause literal.complement handle : Run (Batch × Engine) Unit)
  let removed := plan.blocked.map Prod.fst ++
    if plan.eliminate then
      plan.positive.toList ++ plan.negative.toList ++ plan.redundant
    else []
  removed.forM fun handle => (removeLazily handle : Run (Batch × Engine) Unit)
  modifyBatch fun batch =>
    { batch with
      blocked := batch.blocked + plan.blocked.length
      deleted := batch.deleted ++ removed.toArray }
  if plan.eliminate then
    modifyBatch fun batch =>
      { batch with
        removable := batch.removable.setIfInBounds pivot false
        eliminated := batch.eliminated.push pivot }

/-- Put a variable off, unless that was done often enough. -/
def putOff (name tries : Nat) (queue : List (Nat × Nat)) :
    Run (Batch × Engine) (List (Nat × Nat)) := do
  let settings ← Engine.look fun engine => engine.settings
  if tries < settings.postponements.toNat then
    modifyBatch fun batch => { batch with postponed := batch.postponed + 1 }
    return queue ++ [(name, tries + 1)]
  else
    modifyBatch fun batch => { batch with overflow := batch.overflow + 1 }
    return queue

/-- Try to eliminate a variable. -/
def attempt (pivot : Nat) : Run (Batch × Engine) Unit := do
  match ← plan pivot with
  | none => pure ()
  | some plan => commit pivot plan

/-- Make a move. The queue has the variables and how often they were put off. The answer is
what is left of it, or nothing if it is empty or the steps are used up. -/
def turn (move : Move) (queue : List (Nat × Nat)) :
    Run (Batch × Engine) (Option (List (Nat × Nat))) := do
  modifyBatch fun batch => { batch with rush := move.rush, claimed := move.claimed }
  if ← spend 1 then
    match queue.drop move.place ++ queue.take move.place with
    | [] => return none
    | (pivot, tries) :: rest =>
      if ← Run.access (← getBatch).removable[pivot]? then
        if move.contended then
          let queue ← putOff pivot tries rest
          return some queue
        else
          attempt pivot
          return some rest
      else return some rest
  else return none

/-- Make moves until there is nothing to do any more. -/
def serve : List Move → List (Nat × Nat) → Run (Batch × Engine) Unit
  | [], _ => return ()
  | move :: moves, queue => do
    match ← turn move queue with
    | none => return ()
    | some rest => serve moves rest

end Batch

/-- Batch elimination keeps a subsumer of its own. -/
abbrev BatchEliminator := Tool Subsumer

namespace BatchEliminator

/-- Use the subsumer. -/
def onSubsumer {α : Type} (body : Work Subsumer α) : Work BatchEliminator α :=
  fun (tool, engine) =>
    match body (tool.own, engine) with
    | .done value (subsumer, engine) => .done value ({ tool with own := subsumer }, engine)
    | .failed cause (subsumer, engine) => .failed cause ({ tool with own := subsumer }, engine)
    | .stuck why => .stuck why

/-- The removable variables among the given ones, with the number of occurrences
of their rarer literal. -/
def removableVars? (engine : Engine) : List Nat → Option (List (Nat × Int))
  | [] => some []
  | name :: rest => do
    let removable ← engine.isRemovable? name
    let others ← removableVars? engine rest
    if removable then
      let rarity ← VarHeap.rarity? engine.index name
      return (name, rarity) :: others
    else return others

/-- Serve the queue on the engine, with the limit of the tool's budget: first as the schedule
says, and then what is left in order. -/
def pass (queue : List Nat) (removable : Array Bool) : Work BatchEliminator Batch :=
  fun (tool, engine) =>
    let moves := engine.settings.moves tool.runs ++ List.replicate (queue.length + 1) {}
    match Batch.serve moves (queue.map fun name => (name, 0))
      ({ removable := removable, limit := tool.budget.limit }, engine) with
    | .done () (batch, engine) => .done batch (tool, engine)
    | .failed cause (_, engine) => .failed cause (tool, engine)
    | .stuck why => .stuck why

/-- Spend the steps of a pass. -/
def charge (steps : UInt64) : Work BatchEliminator Unit := fun (tool, engine) =>
  .done () ({ tool with budget := (tool.budget.spend engine.interrupted steps).2 }, engine)

/-- Make the removal of a clause known. -/
def reportDeleted (handle : Handle) : Run Engine Unit := do
  let clause ← Engine.clause handle
  Engine.prove (.removed clause.literals)
  Engine.touch

/-- Make the elimination of a variable known. -/
def reportEliminated (name : Nat) : Run Engine Unit := do
  Engine.handle (.eliminated name)
  Engine.count fun tally => { tally with eliminated := tally.eliminated + 1 }

/-- Take stock after a pass. -/
def takeStock (batch : Batch) : Run Engine Unit := do
  modify fun engine => { engine with index := engine.index.clean engine.arena }
  Engine.count fun tally =>
    { tally with
      resolvents := tally.resolvents + batch.resolvents.size
      blocked := tally.blocked + batch.blocked
      postponed := tally.postponed + batch.postponed
      postponeOverflow := tally.postponeOverflow + batch.overflow }
  batch.deleted.toList.forM reportDeleted
  batch.eliminated.toList.forM reportEliminated

/-- The queue of a pass, the rarer variables first. -/
def queueOf (counted : List (Nat × Int)) : List Nat :=
  (sortBy (fun a b => a.2 < b.2 || (a.2 == b.2 && a.1 ≤ b.1)) counted).map Prod.fst

/-- A table in which the counted variables are removable. -/
def tableOf (numVars : Nat) (counted : List (Nat × Int)) : Array Bool :=
  counted.foldl (fun table (name, _) => table.setIfInBounds name true)
    (Array.replicate (numVars + 1) false)

/-- Eliminate variables in one pass. -/
def sweep : Work BatchEliminator Batch := do
  Engine.propagateUnits
  (modify fun engine => { engine with index := engine.index.clean engine.arena } :
    Run Engine Unit)
  let engine ← (get : Run Engine Engine)
  let counted ← Run.access (removableVars? engine (List.range' 1 engine.numVars))
  let batch ← pass (queueOf counted) (tableOf engine.numVars counted)
  let workers := engine.settings.workers
  let idle := if workers = 0 then 0 else workers - 1
  charge (batch.steps + idle)
  takeStock batch
  onSubsumer (Subsumer.start (engine.stepLimit engine.settings.subsumptionSteps))
  return batch

/-- Subsume with the resolvents of a pass. -/
def tidy (batch : Batch) : Work BatchEliminator Unit := do
  batch.resolvents.toList.forM fun handle => onSubsumer (Subsumer.enqueue handle)
  onSubsumer Subsumer.drain
  Engine.propagateUnits

/-- Eliminate variables and tidy up. -/
def run : Work BatchEliminator Unit := do
  let batch ← sweep
  tidy batch

/-- Run batch elimination once. -/
def process : Work BatchEliminator Status :=
  Work.process Settings.eliminationSteps run fun run before budget after =>
    .batchEliminated run (if before.settings.workers = 0 then 1 else before.settings.workers)
      (after.tally.eliminated - before.tally.eliminated) after.tally.postponed budget.used

end BatchEliminator

end CnfSimplifier
