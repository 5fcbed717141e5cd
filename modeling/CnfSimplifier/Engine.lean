import CnfSimplifier.Settings
import CnfSimplifier.Notice
import CnfSimplifier.Proof
import CnfSimplifier.Reconstruction
import CnfSimplifier.Implication

/-!
# The engine

Everything that the techniques work on: the clauses with their occurrence index,
the assignment, the records for model reconstruction, the proof, and counters.
Techniques change the formula only through the operations of this module, which
keep the parts in step and count every change, so that the absence of a change
can be told.

The operations that add clauses expect them to be implied by the formula, or to
be part of it. They drop clauses that hold anyway, leave out literals that are
false at the root, and turn a clause of one literal into a root assignment.

The flag that stops a run is read at each look at a budget. It may be raised or
lowered between runs; that another thread raises it within a run is left out.
-/
namespace CnfSimplifier

/-- How often each technique had an effect. -/
structure Tally where
  subsumed : Nat := 0
  strengthened : Nat := 0
  eliminated : Nat := 0
  resolvents : Nat := 0
  blocked : Nat := 0
  gates : Nat := 0
  substituted : Nat := 0
  failedLiterals : Nat := 0
  necessary : Nat := 0
  twoSatUnits : Nat := 0
  units : Nat := 0
  postponed : Nat := 0
  postponeOverflow : Nat := 0
  hiddenTautologies : Nat := 0
  hiddenLiterals : Nat := 0
deriving DecidableEq, Inhabited

/-- The state that techniques share. -/
structure Engine where
  settings : Settings
  arena : Arena := {}
  index : Occurrences
  trail : Trail
  records : Reconstruction := {}
  /-- The proof steps so far, if a proof is kept. -/
  proof : Option (Array ProofStep) := none
  random : Random
  /-- Whether a run is to stop as soon as possible. -/
  interrupted : Bool := false
  /-- Whether step limits are scaled. -/
  inprocessing : Bool := false
  tally : Tally := {}
  /-- How many literals of the trail were applied to the clauses. -/
  applied : Nat := 0
  /-- The number of changes so far. -/
  changes : Nat := 0
  /-- The first broken invariant. No model can be trusted after it. -/
  poisoned : Option String := none
  /-- Whether the empty clause was derived. -/
  unsat : Bool := false
  notices : Array Notice := #[]

namespace Engine

/-- The engine without clauses over a number of variables. -/
def ofVars (settings : Settings) (numVars : Nat) : Engine where
  settings := settings
  index := Occurrences.ofVars numVars
  trail := Trail.ofVars numVars
  random := Random.ofSeed settings.seed

/-- The number of variables. -/
def numVars (engine : Engine) : Nat := engine.trail.numVars

/-- The step limit of a run under the current settings. -/
def stepLimit (engine : Engine) (base : UInt64) : UInt64 :=
  engine.settings.stepLimit base engine.inprocessing

/-- Whether a variable is protected. -/
def isFrozen? (engine : Engine) (name : Nat) : Option Bool :=
  (engine.trail.flags? name).map VarFlags.frozen

/-- Whether a variable may be eliminated or substituted: it is open, not
protected and not gone. -/
def isRemovable? (engine : Engine) (name : Nat) : Option Bool :=
  (engine.trail.vars[name]?).map fun state => state.value.isNone && state.flags.isRemovable

/-- The literals of all live clauses, counted. -/
def liveLiterals (engine : Engine) : Nat :=
  engine.arena.slots.foldl (fun sum clause => if clause.isDead then sum else sum + clause.size) 0

/-! ## Access to the parts -/

/-- Read from the engine. -/
@[always_inline, inline]
def look {α : Type} (question : Engine → α) : Run Engine α := fun engine =>
  let answer := question engine
  .done answer engine

/-- Change the arena. -/
def updateArena (change : Arena → Option Arena) : Run Engine Unit :=
  Run.update fun engine => do
    let arena ← change engine.arena
    return { engine with arena := arena }

/-- Change the occurrence index. -/
def updateIndex (change : Occurrences → Option Occurrences) : Run Engine Unit :=
  Run.update fun engine => do
    let index ← change engine.index
    return { engine with index := index }

/-- Change the trail. -/
def updateTrail (change : Trail → Option Trail) : Run Engine Unit :=
  Run.update fun engine => do
    let trail ← change engine.trail
    return { engine with trail := trail }

/-- Run a computation on the trail that reads the clauses. -/
def onTrail {α : Type} (body : Arena → Occurrences → Run Trail α) : Run Engine α := fun engine =>
  match body engine.arena engine.index engine.trail with
  | .done value trail => .done value { engine with trail := trail }
  | .failed cause trail => .failed cause { engine with trail := trail }
  | .stuck why => .stuck why

/-- The clause of a handle. -/
def clause (handle : Handle) : Run Engine Clause :=
  Run.read fun engine => engine.arena.get? handle

/-- The handles listed for a literal. -/
def occurrences (literal : Literal) : Run Engine (List Handle) :=
  Run.read fun engine => (engine.index.list? literal).map Array.toList

/-- The value of a literal. -/
def literalValue (literal : Literal) : Run Engine (Option Bool) :=
  Run.read fun engine => engine.trail.literalValue? literal

/-- Whether a variable may be eliminated or substituted. -/
def isRemovable (name : Nat) : Run Engine Bool :=
  Run.read fun engine => engine.isRemovable? name

/-- Change the marks of a clause; a stale handle is passed over. -/
def markClause (handle : Handle) (change : ClauseFlags → ClauseFlags) : Run Engine Unit :=
  modify fun engine =>
    match engine.arena.mark handle change with
    | some arena => { engine with arena := arena }
    | none => engine

/-- Change the tally. -/
def count (change : Tally → Tally) : Run Engine Unit :=
  modify fun engine => { engine with tally := change engine.tally }

/-- Give a notice. -/
def tell (notice : Notice) : Run Engine Unit :=
  modify fun engine => { engine with notices := engine.notices.push notice }

/-- Count a change. -/
def touch : Run Engine Unit := modify fun engine => { engine with changes := engine.changes + 1 }

/-! ## Proof, events and verdicts -/

/-- Add a step to the proof, if one is kept. -/
def prove (step : ProofStep) : Run Engine Unit :=
  modify fun engine => { engine with proof := engine.proof.map fun steps => steps.push step }

/-- Follow an event. -/
def handle (event : Event) : Run Engine Unit :=
  match event with
  | .newVar => do
    if (← get).trail.hasRoom then
      updateTrail fun trail => trail.handle event
      updateIndex fun index => some index.addVar
    else Run.stop .outOfSpace
  | .eliminated _ | .substituted _ => do
    updateTrail fun trail => trail.handle event
    touch
  | .asserted _ => touch
  | .reinitialized => updateTrail fun trail => trail.handle event

/-- Draw the conclusion from the end of a technique: derive the empty clause when
the formula has no model, and remember the first broken invariant. -/
def conclude (result : Except Error Unit) : Run Engine Status :=
  match result with
  | .ok () => look fun engine => if engine.arena.isEmpty then .sat else .unknown
  | .error cause =>
    if cause.isUnsat then do
      let engine ← get
      if engine.unsat then pure ()
      else do
        modify fun engine => { engine with unsat := true }
        prove (.added [])
      return .unsat
    else
      match cause with
      | .interrupted => return .unknown
      | .invariantBroken message => do
        tell (.violated message)
        modify fun engine => { engine with poisoned := engine.poisoned <|> some message }
        return .unknown
      | _ => do
        tell (.stopped cause)
        return .unknown

/-! ## Clauses -/

/-- Assign a literal at the root as a derived unit clause. -/
def assignUnit (literal : Literal) : Run Engine Unit := do
  match ← literalValue literal with
  | some true => pure ()
  | some false => Run.fail (.rootConflict literal)
  | none =>
    let flags ← Run.read fun engine => engine.trail.flags? literal.var
    if flags.isRemoved then
      Run.fail (.invariantBroken ("assigning a removed var by " ++ literal.text))
    else do
      prove (.added [literal])
      onTrail fun _ _ => Trail.assignAtRoot literal
      count fun tally => { tally with units := tally.units + 1 }
      handle (.asserted literal.var)

/-- Put a clause into the arena. A handle has 32 bits for the slot, and the last one
is reserved; once all others are given away there is no room for another clause. -/
def insertClause (literals : List Literal) (redundant : Bool) : Run Engine Handle := fun engine =>
  if engine.arena.slots.size + 1 < UInt32.size then
    let (handle, arena) := engine.arena.insert literals redundant
    .done handle { engine with arena := arena }
  else .stuck .outOfSpace

/-- The literals that have no value. -/
def openLiterals? (trail : Trail) : List Literal → Option (List Literal)
  | [] => some []
  | literal :: rest => do
    let value ← trail.literalValue? literal
    let others ← openLiterals? trail rest
    return if value.isNone then literal :: others else others

/-- Store a clause. The proof gets a step if the clause is derived, or if
literals had to be left out of it. -/
def storeClause (literals : List Literal) (redundant derived : Bool) :
    Run Engine (Option Handle) := do
  let engine ← get
  if literals.any fun l => engine.numVars < l.var || l.var == 0 then Run.fail .outOfRange
  else
    let sorted := sortedLiterals literals
    if hasComplements sorted then return none
    else if ← Run.access (engine.trail.satisfies? sorted) then return none
    else
      match ← Run.access (openLiterals? engine.trail sorted) with
      | [] => Run.fail .emptyClause
      | [literal] =>
        assignUnit literal
        return none
      | remaining =>
        if derived || remaining.length < sorted.length then prove (.added remaining)
        let handle ← insertClause remaining redundant
        let stored ← clause handle
        updateIndex fun index => index.add handle stored.literals
        touch
        return some handle

/-- Add a clause that follows from the formula. -/
def addClause (literals : List Literal) (redundant : Bool) : Run Engine (Option Handle) :=
  storeClause literals redundant true

/-- Add a clause that comes from outside. -/
def importClause (literals : List Literal) (redundant : Bool) : Run Engine (Option Handle) :=
  storeClause literals redundant false

/-- Remove a clause. -/
def removeClause (handle : Handle) : Run Engine Unit := do
  let removed ← clause handle
  prove (.removed removed.literals)
  updateIndex fun index => index.remove handle removed.literals
  updateArena fun arena => arena.remove handle
  touch

/-- Remove a clause unless it is gone already. -/
def removeIfLive (handle : Handle) : Run Engine Unit := do
  let clause ← clause handle
  if clause.isDead then pure () else removeClause handle

/-- Take a literal out of a clause. A clause of two literals goes altogether, and
the other literal is assigned. -/
def strengthen (handle : Handle) (literal : Literal) : Run Engine Unit := do
  let old ← clause handle
  match old.literals with
  | [first, second] =>
    assignUnit (if first = literal then second else first)
    removeClause handle
  | literals =>
    prove (.added (literals.filter fun l => l != literal))
    prove (.removed literals)
    updateArena fun arena => (arena.strengthen handle literal).map Prod.snd
    updateIndex fun index => index.removeFrom handle literal
    count fun tally => { tally with strengthened := tally.strengthened + 1 }
    touch

/-- Replace a clause by one that follows from it; the answer is the new handle if
a clause is left. -/
def replaceClause (handle : Handle) (literals : List Literal) : Run Engine (Option Handle) := do
  let old ← clause handle
  let new ← addClause literals old.isRedundant
  removeClause handle
  return new

/-- Make a redundant clause irredundant. -/
def makeIrredundant (handle : Handle) : Run Engine Unit :=
  updateArena fun arena => arena.makeIrredundant handle

/-- Push a record for model reconstruction. -/
def pushRecord (chosen : Literal) (literals : List Literal) : Run Engine Unit :=
  modify fun engine => { engine with records := engine.records.push chosen literals }

/-- Remove a clause and record it with a chosen literal, unless it is redundant. -/
def removeWithRecord (handle : Handle) (chosen : Literal) : Run Engine Unit := do
  let removed ← clause handle
  if removed.isRedundant then pure () else pushRecord chosen removed.literals
  removeClause handle

/-- Compact the arena. The index is carried over; whoever holds other handles has
to carry them over with the answer. -/
def compact : Run Engine Relocation := do
  let relocation ← modifyGet fun engine =>
    let (relocation, arena) := engine.arena.compact
    (relocation, { engine with arena := arena })
  updateIndex fun index => index.relocate relocation
  let epoch ← look fun engine => engine.arena.epoch
  tell (.compacted relocation.survivors epoch)
  return relocation

/-- Check the index against the arena. -/
def check : Run Engine Unit := do
  match ← Run.read fun engine => engine.index.check engine.arena with
  | none => pure ()
  | some violation => Run.fail (.invariantBroken violation.message)

/-- Close all decision levels. -/
def cancelToRoot : Run Engine Unit := updateTrail fun trail => trail.cancelUntil 0

/-- Drop one clause without a word to the proof. -/
def releaseClause (handle : Handle) : Run Engine Unit := do
  let released ← clause handle
  updateIndex fun index => index.remove handle released.literals
  updateArena fun arena => arena.remove handle

/-- Drop every clause without a word to the proof; they belong to a solver now. -/
def releaseClauses : Run Engine Unit := do
  let handles ← look fun engine => engine.arena.handles
  handles.forM releaseClause
  touch

/-- The live clauses as signed integers. -/
def clausesAsInts (engine : Engine) : List (List Int) :=
  engine.arena.liveClauses.map fun clause => clause.literals.map Literal.toInt

/-- The stamped implication graph of the irredundant binary clauses over open
variables. -/
def implications : Run Engine Implications := fun engine =>
  match Implications.freeBinaries? engine.trail engine.arena.slots.toList with
  | none => .stuck .badAccess
  | some binaries =>
    match Implications.build engine.numVars binaries engine.random with
    | .done graph random => .done graph { engine with random := random }
    | .failed cause random => .failed cause { engine with random := random }
    | .stuck why => .stuck why

/-! ## Applying root assignments -/

/-- Remove those of the listed clauses that a true literal satisfies. -/
def removeSatisfied (literal : Literal) : List Handle → Run Engine Unit
  | [] => pure ()
  | handle :: rest => do
    if ← look fun engine => engine.arena.holds handle literal then removeClause handle
    removeSatisfied literal rest

/-- Take a false literal out of the listed clauses. -/
def removeFalsified (literal : Literal) : List Handle → Run Engine Unit
  | [] => pure ()
  | handle :: rest => do
    if ← look fun engine => engine.arena.holds handle literal then strengthen handle literal
    removeFalsified literal rest

/-- Apply the literals of the trail from the first unapplied one on. -/
def applyUnits : Nat → Run Engine Unit
  | 0 => Run.stop .outOfFuel
  | fuel + 1 => do
    match ← look fun engine => engine.trail.literals[engine.applied]? with
    | none => pure ()
    | some literal =>
      modify fun engine => { engine with applied := engine.applied + 1 }
      removeSatisfied literal (← occurrences literal)
      removeFalsified literal.complement (← occurrences literal.complement)
      applyUnits fuel

/-- Apply the root assignment to the clauses until nothing is left to apply:
satisfied clauses go and false literals are taken out. Every round applies one
literal, and a literal comes onto the trail only when its variable is open. -/
def propagateUnits : Run Engine Unit := do
  let trail ← look fun engine => engine.trail
  applyUnits (trail.literals.size + trail.vars.size + 1)

end Engine

end CnfSimplifier
