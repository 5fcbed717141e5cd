import CnfSimplifier.ClauseStream
import CnfSimplifier.Dimensions
import CnfSimplifier.Toolbox

/-!
# The simplifier

A formula with the tools to simplify it. A run goes through the techniques in
passes until a pass changes nothing, the formula is decided, or the run is
interrupted. What is left can be exported, in the numbering in effect, and a model
of the exported formula can be extended to a model of the whole one.

Variables keep their names inside. Protected variables survive every run; the
others may be removed, and clauses over removed variables are refused.
-/
namespace CnfSimplifier

/-- A formula with the tools to simplify it. -/
structure Simplifier where
  engine : Engine
  tools : Toolbox
  /-- The number of runs so far. -/
  runs : Nat := 0

namespace Simplifier

/-- The simplifier without clauses over a number of variables. -/
def ofVars (settings : Settings) (numVars : Nat) : Simplifier where
  engine := Engine.ofVars settings numVars
  tools := Toolbox.ofVars numVars

/-- Work on the engine alone. -/
@[always_inline, inline]
def onEngine {α : Type} (body : Run Engine α) : Run Simplifier α := fun simplifier =>
  let ⟨engine, tools, runs⟩ := simplifier
  match body engine with
  | .done value engine => .done value ⟨engine, tools, runs⟩
  | .failed cause engine => .failed cause ⟨engine, tools, runs⟩
  | .stuck why => .stuck why

/-- Work on the engine with the tools. -/
@[always_inline, inline]
def onTools {α : Type} (body : Run (Toolbox × Engine) α) : Run Simplifier α := fun simplifier =>
  let ⟨engine, tools, runs⟩ := simplifier
  match body (tools, engine) with
  | .done value (tools, engine) => .done value ⟨engine, tools, runs⟩
  | .failed cause (tools, engine) => .failed cause ⟨engine, tools, runs⟩
  | .stuck why => .stuck why

instance : MonadLift (Run Engine) (Run Simplifier) := ⟨onEngine⟩

/-- Change the tools. -/
def updateTools (change : Toolbox → Option Toolbox) : Run Simplifier Unit :=
  Run.update fun simplifier => do
    let tools ← change simplifier.tools
    return { simplifier with tools := tools }

/-- The number of variables. -/
def numVars (simplifier : Simplifier) : Nat := simplifier.engine.numVars

/-- The numbering of exported variables. -/
def numbering (simplifier : Simplifier) : Numbering := simplifier.tools.renumbering.own

/-- The number of variables in the exported numbering. -/
def numExported (simplifier : Simplifier) : Nat :=
  if simplifier.numbering.isActive then simplifier.numbering.size else simplifier.numVars

/-- Follow an event. -/
def handle (event : Event) : Run Simplifier Unit := do
  Engine.handle event
  updateTools fun tools => some (tools.handle event)

/-- Number one more variable, if a numbering is in effect. -/
def numberVar (name : Nat) (tools : Toolbox) : Toolbox :=
  let tool := tools.renumbering
  if tool.own.isActive then
    { tools with renumbering := { tool with own := (tool.own.push name).2 } }
  else tools

/-- Add a variable; the answer is its name. -/
def newVar : Run Simplifier Nat := do
  handle .newVar
  let name := (← get).numVars
  updateTools fun tools => some (numberVar name tools)
  return name

/-- Add a number of variables. -/
def newVars : Nat → Run Simplifier Unit
  | 0 => pure ()
  | count + 1 => do
    let _ ← newVar
    newVars count

/-- Add variables until there are this many. -/
def reserve (numVars : Nat) : Run Simplifier Unit := do
  newVars (numVars - (← get).numVars)

/-- Add variables until the exported numbering has this many. -/
def reserveExported (numVars : Nat) : Run Simplifier Unit := do
  newVars (numVars - (← get).numExported)

/-- Refuse a literal whose variable was removed. -/
def checkPresent (literal : Literal) : Run Simplifier Unit := do
  let flags ← Run.read fun simplifier => simplifier.engine.trail.flags? literal.var
  if flags.isRemoved then Run.fail .invalidLiteral

/-! ## Adding clauses -/

/-- Read the literals of a clause; variables are added on demand. -/
def readLiterals : List Int → Run Simplifier (List Literal)
  | [] => return []
  | 0 :: _ => Run.fail .invalidLiteral
  | value :: rest => do
    let literal := Literal.ofInt value
    reserve literal.var
    checkPresent literal
    let others ← readLiterals rest
    return literal :: others

/-- Add a clause. Literals are refused if they are zero or over removed
variables. If the clause refutes the formula, that is remembered. -/
def addClause (clause : List Int) : Run Simplifier Unit := do
  let literals ← readLiterals clause
  match ← (Engine.importClause literals false).attempt with
  | .ok _ => pure ()
  | .error cause =>
    let _ ← Engine.conclude (.error cause)
    Run.fail cause

/-- Add clauses; a refuted formula is no reason to stop. -/
def addClauses : List (List Int) → Run Simplifier Unit
  | [] => pure ()
  | clause :: rest => do
    match ← (addClause clause).attempt with
    | .ok () => addClauses rest
    | .error cause => if cause.isUnsat then addClauses rest else Run.fail cause

/-- The simplifier of a formula. -/
def ofClauses (settings : Settings) (clauses : List (List Int)) : Outcome Simplifier Unit :=
  addClauses clauses (ofVars settings (Dimensions.ofClauses clauses).numVars)

/-- Protect a variable. -/
def freeze (name : Nat) : Run Simplifier Unit := do
  if name = 0 || (← get).numVars < name then Run.fail .outOfRange
  else do
    checkPresent (Literal.ofVar name true)
    Engine.updateTrail fun trail => trail.setFlag name .frozen true

/-- Take the protection of a variable back. -/
def unfreeze (name : Nat) : Run Simplifier Unit := do
  if name = 0 || (← get).numVars < name then Run.fail .outOfRange
  else Engine.updateTrail fun trail => trail.setFlag name .frozen false

/-- Keep a proof from now on. -/
def keepProof (simplifier : Simplifier) : Simplifier :=
  { simplifier with engine := { simplifier.engine with proof := some #[] } }

/-- Stop keeping a proof; the answer is what was kept. -/
def takeProof (simplifier : Simplifier) : Option (Array ProofStep) × Simplifier :=
  (simplifier.engine.proof,
    { simplifier with engine := { simplifier.engine with proof := none } })

/-! ## Runs -/

/-- The techniques of a pass, in order. -/
inductive Stage where
  | units
  | twoSat
  | subsumption
  | equivalences
  | probing
  | elimination
  | blockedClauses
deriving DecidableEq

/-- The order of a pass. -/
def stages : List Stage :=
  [.units, .twoSat, .subsumption, .equivalences, .probing, .elimination, .blockedClauses]

/-- The technique of a stage, if it is switched on. -/
def Stage.technique? (settings : Settings) : Stage → Option Technique
  | .units => some .units
  | .twoSat => if settings.twoSat then some .twoSat else none
  | .subsumption => if settings.subsumption then some .subsumption else none
  | .equivalences => if settings.equivalences then some .equivalences else none
  | .probing => if settings.probing then some .probing else none
  | .elimination =>
    if settings.elimination then
      some (if 1 < settings.workers then .batchElimination else .elimination)
    else none
  | .blockedClauses => if settings.blockedClauses then some .blockedClauses else none

/-- Compact the arena if more slots are dead than live. -/
def collectGarbage : Run Simplifier Unit := do
  let arena := (← get).engine.arena
  let garbage := arena.garbage
  if 0 < garbage && UInt64.ofNat arena.slots.size < 2 * garbage then
    let relocation ← Engine.compact
    updateTools fun tools => tools.relocate relocation

/-- Run a technique unless it has to sit the round out; the answer is its status
if it ran. A run without a change is penalised. -/
def runTechnique (technique : Technique) : Run Simplifier (Option Status) := do
  let (mayRun, budget) := ((← get).tools.budget technique).mayRun
  updateTools fun tools => some (tools.modifyBudget (fun _ => budget) technique)
  if mayRun then
    let before := (← get).engine.changes
    let status ← onTools (Toolbox.process technique)
    let changed := (← get).engine.changes - before
    updateTools fun tools => some <|
      tools.modifyBudget (fun b => if 0 < changed then b.forgive else b.penalise) technique
    let budget := (← get).tools.budget technique
    Engine.tell (.ran technique status changed budget.used budget.limit)
    return some status
  else do
    Engine.tell (.skipped technique)
    return none

/-- How a pass ended. -/
inductive PassEnd where
  /-- All stages are done. -/
  | complete
  /-- The run is over, with this status. -/
  | stopped (status : Status)
deriving DecidableEq

/-- Go through the given stages. -/
def runStages (pass : Nat) : List Stage → Run Simplifier PassEnd
  | [] => return .complete
  | stage :: rest => do
    let engine := (← get).engine
    if engine.interrupted then
      Engine.tell (.interruptedAt pass)
      return .stopped .unknown
    else
      match stage.technique? engine.settings with
      | none => runStages pass rest
      | some technique =>
        match ← runTechnique technique with
        | some .unsat => return .stopped .unsat
        | some .sat => return .stopped .sat
        | _ =>
          if (← get).engine.poisoned.isSome then return .stopped .unknown
          else do
            collectGarbage
            runStages pass rest

/-- Go through passes from one on, at most a number of them, until one changes
nothing. -/
def runPasses : Nat → Nat → Run Simplifier Status
  | 0, _ => return .unknown
  | remaining + 1, pass => do
    let before := (← get).engine.changes
    match ← runStages pass stages with
    | .stopped status => return status
    | .complete =>
      let changed := (← get).engine.changes - before
      Engine.tell (.passed pass changed)
      if changed = 0 then return .unknown else runPasses remaining (pass + 1)

/-- Refresh the phases for the final formula, and number the variables if that is
asked for and was not done before. -/
def finish (inprocessing : Bool) : Run Simplifier Unit := do
  let engine := (← get).engine
  if engine.settings.twoSat && !engine.interrupted then
    let _ ← onTools (Toolbox.process .twoSat)
  let simplifier ← get
  if !inprocessing && simplifier.engine.settings.renumbering && !simplifier.engine.unsat &&
      !simplifier.numbering.isActive then
    let _ ← onTools (Toolbox.process .renumbering)

/-- What is known of the formula after a run. -/
def verdict (engine : Engine) : Status :=
  if engine.unsat then .unsat
  else if engine.poisoned.isNone && engine.arena.isEmpty then .sat
  else .unknown

/-- The notice at the end of a run. -/
def summary (engine : Engine) (status : Status) : Notice :=
  .ended status engine.numVars engine.trail.numRoot engine.trail.eliminated
    engine.trail.substituted (wordOf engine.arena.active) engine.records.count

/-- Simplify the formula. -/
def run (inprocessing : Bool) : Run Simplifier Status := do
  modify fun simplifier => { simplifier with runs := simplifier.runs + 1 }
  let simplifier ← get
  if simplifier.engine.unsat then return .unsat
  else
    match simplifier.engine.poisoned with
    | some message =>
      Engine.tell (.refused message)
      return .unknown
    | none =>
      (modify fun engine => { engine with inprocessing := inprocessing } : Run Engine Unit)
      Engine.cancelToRoot
      let engine := (← get).engine
      Engine.tell (.began inprocessing simplifier.runs engine.numVars
        (wordOf engine.arena.active))
      let status ← runPasses engine.settings.passes.toNat 1
      if status ≠ .unsat then finish inprocessing
      updateTools Toolbox.forgetAll
      collectGarbage
      (modify fun engine => { engine with inprocessing := false } : Run Engine Unit)
      let engine := (← get).engine
      Engine.tell (summary engine (verdict engine))
      return verdict engine

/-- Simplify the formula before search. -/
def preprocess : Run Simplifier Status := run false

/-- Simplify the formula during search, with scaled step limits. -/
def inprocess : Run Simplifier Status := run true

/-! ## Export and model extension -/

/-- The exported form of a literal, if its variable has a number. -/
def exportLiteral? (simplifier : Simplifier) (literal : Literal) : Option Literal :=
  if simplifier.numbering.isActive then simplifier.numbering.toNumbered? literal
  else some literal

/-- What is exported: a unit for every root literal, then the live clauses. A
refuted formula is the empty clause. -/
def exportedLists (simplifier : Simplifier) : List (List Int) :=
  if simplifier.engine.unsat then [[]]
  else
    let exported := simplifier.exportLiteral?
    (simplifier.engine.trail.rootLiterals.filterMap exported).map (fun l => [l.toInt]) ++
      simplifier.engine.arena.liveClauses.map fun clause =>
        (clause.literals.filterMap exported).map Literal.toInt

/-- The exported formula as one stream. -/
def dump (simplifier : Simplifier) : List Int := ClauseStream.write simplifier.exportedLists

/-- The exported formula as it is read from the stream. A literal of no variable
is written as a zero, so it ends a clause. -/
def exportedClauses (simplifier : Simplifier) : List (List Int) :=
  ClauseStream.read simplifier.dump

/-- The exported form of a literal, if its variable is still there. -/
def exportedLiteral? (simplifier : Simplifier) (literal : Literal) : Option Literal :=
  if literal.var = 0 then none
  else
    match simplifier.engine.trail.flags? literal.var with
    | none => none
    | some flags => if flags.isRemoved then none else simplifier.exportLiteral? literal

/-- Read a model of the exported formula, given as literals. -/
def readModel : List Int → Model → Except Error Model
  | [], model => .ok model
  | literal :: rest, model =>
    if literal = 0 then .error .invalidLiteral
    else if model.size ≤ literal.natAbs then .error .outOfRange
    else readModel rest (model.setIfInBounds literal.natAbs (some (0 < literal)))

/-- Set the root literals in a model. -/
def setRoot : List Literal → Model → Option Model
  | [], model => some model
  | literal :: rest, model =>
    if literal.var < model.size then
      setRoot rest (model.setIfInBounds literal.var (some literal.isPositive))
    else none

/-- Extend values of exported variables to all variables. -/
def extendValues (simplifier : Simplifier) (values : Model) : Option Model := do
  let values ←
    if simplifier.numbering.isActive then
      simplifier.numbering.decompress values simplifier.numVars
    else some values
  let values ← setRoot simplifier.engine.trail.rootLiterals values
  simplifier.engine.records.extend values

/-- Turn a model of the exported formula into a model of the whole one: a literal
for every variable, in order. -/
def extendModel (model : List Int) : Run Simplifier (List Int) := do
  let simplifier ← get
  match simplifier.engine.poisoned with
  | some message => Run.fail (.invariantBroken message)
  | none =>
    if simplifier.engine.unsat then Run.fail .inconsistent
    else
      match readModel model (Array.replicate (simplifier.numExported + 1) none) with
      | .error cause => Run.fail cause
      | .ok values =>
        let values ← Run.access (simplifier.extendValues values)
        return (List.range' 1 simplifier.numVars).map fun (name : Nat) =>
          if (values[name]?).join = some true then (name : Int) else -(name : Int)

end Simplifier

end CnfSimplifier
