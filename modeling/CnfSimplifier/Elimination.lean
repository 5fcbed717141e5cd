import CnfSimplifier.Subsumption
import CnfSimplifier.VarHeap
import CnfSimplifier.Resolution
import CnfSimplifier.Gate

/-!
# Variable elimination

A variable can be replaced by all resolvents on it: they have a model exactly if
the clauses with the variable have one, and the removed clauses, kept as records,
tell the value of the variable. It is done when the clauses do not grow in number
by more than a limit. Clauses whose resolvents are all tautologies are blocked;
they are removed on the way. If the variable is the output of a gate, resolvents
of two defining clauses or of two others are left out.

Variables are tried in the order of their occurrences. Whenever a variable
changed the formula, the variables it touched are tried again.
-/
namespace CnfSimplifier

/-- The state that elimination keeps. -/
structure Eliminator where
  heap : VarHeap := {}
  subsumer : Tool Subsumer := { own := {} }
  /-- By how many clauses the run made the formula grow. -/
  grown : UInt64 := 0

/-- What the resolvents on a variable would amount to. -/
structure Forecast where
  clauses : Nat := 0
  literals : Nat := 0
  tautologies : Nat := 0

/-- Whether a variable has too many occurrences to be tried. -/
def Settings.skips (settings : Settings) (positive negative : Nat) : Bool :=
  !settings.unlimitedOccurrences &&
    ((10 < positive && 10 < negative) ||
      (15 < positive + negative && (5 < positive || 5 < negative)))

/-- Whether a resolvent of a length is too long. -/
def Settings.tooLong (settings : Settings) (length : Nat) : Bool :=
  settings.resolventLength != 0 && settings.resolventLength < UInt64.ofNat length

namespace Eliminator

/-- The empty state over a number of variables. -/
def ofVars (numVars : Nat) : Eliminator := { heap := VarHeap.ofVars numVars }

/-- Follow an event. -/
def handle (event : Event) (eliminator : Eliminator) : Eliminator :=
  match event with
  | .newVar =>
    { eliminator with heap := eliminator.heap.expand (eliminator.heap.numVars + 1) }
  | _ => eliminator

/-- Forget everything bound to a run. -/
def reset (eliminator : Eliminator) : Option Eliminator := do
  let heap ← eliminator.heap.clear
  let subsumer := eliminator.subsumer
  return { eliminator with
    heap := heap
    subsumer := { subsumer with own := subsumer.own.reset } }

/-- Carry handles over a compaction. -/
def relocate (relocation : Relocation) (eliminator : Eliminator) : Option Eliminator := do
  let subsumer := eliminator.subsumer
  let own ← subsumer.own.relocate relocation
  return { eliminator with subsumer := { subsumer with own := own } }

/-- Use the eliminator's own subsumer. -/
def onSubsumer {α : Type} (body : Work Subsumer α) : Work Eliminator α := fun (tool, engine) =>
  let put := fun subsumer => { tool with own := { tool.own with subsumer := subsumer } }
  match body (tool.own.subsumer, engine) with
  | .done value (subsumer, engine) => .done value (put subsumer, engine)
  | .failed cause (subsumer, engine) => .failed cause (put subsumer, engine)
  | .stuck why => .stuck why

/-- Use the heap. -/
def onHeap {α : Type} (body : Occurrences → Run VarHeap α) : Work Eliminator α :=
  fun (⟨budget, runs, ⟨heap, subsumer, grown⟩⟩, engine) =>
    match body engine.index heap with
    | .done value heap => .done value (⟨budget, runs, ⟨heap, subsumer, grown⟩⟩, engine)
    | .failed cause heap => .failed cause (⟨budget, runs, ⟨heap, subsumer, grown⟩⟩, engine)
    | .stuck why => .stuck why

/-- The live clauses with a literal, the irredundant and the redundant ones. -/
def clausesWith (literal : Literal) : Run Engine (List Handle × List Handle) := do
  let listed ← Engine.occurrences literal
  let arena ← Engine.look fun engine => engine.arena
  let isIrredundant := fun handle => ((arena.get? handle).map fun c => !c.isRedundant).getD false
  return (listed.filter fun handle => arena.holds handle literal).partition isIrredundant

/-- Remove the blocked clauses among the last `remaining` ones of a side. The
answer says whether the steps sufficed, which clauses are left, and which
variables were touched. -/
def removeBlocked (literal : Literal) (partners : List Handle) :
    Nat → Array Handle → List Nat → Work Eliminator (Bool × Array Handle × List Nat)
  | 0, side, touched => return (true, side, touched)
  | remaining + 1, side, touched => do
    let place := side.size - (remaining + 1)
    let handle ← Run.access side[place]?
    let clause ← Engine.clause handle
    if ← Work.spend (clause.size * max partners.length 1) then
      let arena ← Engine.look fun engine => engine.arena
      if ← Run.access (Resolution.isBlocked? arena literal.var clause.literals partners) then
        Engine.removeWithRecord handle literal
        Engine.count fun tally => { tally with blocked := tally.blocked + 1 }
        removeBlocked literal partners remaining (side.swapIfInBounds place (side.size - 1)).pop
          (touched ++ clause.literals.map Literal.var)
      else removeBlocked literal partners remaining side touched
    else return (false, side, touched)

/-- Remove the blocked clauses of a side; the partners are all live clauses with
the complement. -/
def removeBlockedSide (literal : Literal) (side : Array Handle) (touched : List Nat) :
    Work Eliminator (Bool × Array Handle × List Nat) := do
  let listed ← Engine.occurrences literal.complement
  let arena ← Engine.look fun engine => engine.arena
  let partners := listed.filter fun handle => (arena.live? handle).isSome
  removeBlocked literal partners side.size side touched

/-- Count the resolvents of one clause with the others. The answer is `none` if
one of them stands against the elimination or the steps are used up. -/
def forecastAgainst (bound : UInt64) (gate : Option (Nat × Nat)) (pivot : Nat) (i : Nat)
    (literals : List Literal) : List (Handle × Nat) → Forecast → Work Eliminator (Option Forecast)
  | [], forecast => return some forecast
  | (handle, j) :: rest, forecast => do
    if Gate.isSelected gate i j then
      let other ← Engine.clause handle
      if ← Work.spend (literals.length + other.size) then
        let settings ← Engine.look fun engine => engine.settings
        match Resolution.size? pivot literals other.literals with
        | none =>
          forecastAgainst bound gate pivot i literals rest
            { forecast with tautologies := forecast.tautologies + 1 }
        | some 0 => return none
        | some size =>
          let clauses := forecast.clauses + 1
          if settings.tooLong size || bound < UInt64.ofNat clauses then return none
          else
            forecastAgainst bound gate pivot i literals rest
              { forecast with clauses := clauses, literals := forecast.literals + size }
      else return none
    else forecastAgainst bound gate pivot i literals rest forecast

/-- Count the resolvents of the given clauses with the others. -/
def forecastAll (bound : UInt64) (gate : Option (Nat × Nat)) (pivot : Nat)
    (negative : List (Handle × Nat)) :
    List (Handle × Nat) → Forecast → Work Eliminator (Option Forecast)
  | [], forecast => return some forecast
  | (handle, i) :: rest, forecast => do
    let clause ← Engine.clause handle
    match ← forecastAgainst bound gate pivot i clause.literals negative forecast with
    | none => return none
    | some forecast => forecastAll bound gate pivot negative rest forecast

/-- Count the selected resolvents on a variable without building them. The answer
is `none` if one is empty or too long, if there are too many, or if the steps are
used up. -/
def forecast (positive negative : List Handle) (pivot : Nat) (gate : Option (Nat × Nat)) :
    Work Eliminator (Option Forecast) := do
  let settings ← Engine.look fun engine => engine.settings
  let bound := UInt64.ofNat (positive.length + negative.length) + settings.growth
  forecastAll bound gate pivot negative.zipIdx positive.zipIdx {}

/-- Add the selected resolvents of one clause with the others. -/
def resolveAgainst (gate : Option (Nat × Nat)) (pivot : Nat) (handle : Handle) (i : Nat) :
    List (Handle × Nat) → List Nat → Work Eliminator (List Nat)
  | [], touched => return touched
  | (partner, j) :: rest, touched => do
    if Gate.isSelected gate i j then
      let clause ← Engine.clause handle
      let other ← Engine.clause partner
      match Resolution.resolvent? pivot clause.literals other.literals with
      | none => resolveAgainst gate pivot handle i rest touched
      | some resolvent =>
        Engine.count fun tally => { tally with resolvents := tally.resolvents + 1 }
        match ← Engine.addClause resolvent false with
        | some new => onSubsumer (Subsumer.enqueue new)
        | none => pure ()
        resolveAgainst gate pivot handle i rest (touched ++ resolvent.map Literal.var)
    else resolveAgainst gate pivot handle i rest touched

/-- Add the selected resolvents of the given clauses with the others. -/
def resolveAll (gate : Option (Nat × Nat)) (pivot : Nat) (negative : List (Handle × Nat)) :
    List (Handle × Nat) → List Nat → Work Eliminator (List Nat)
  | [], touched => return touched
  | (handle, i) :: rest, touched => do
    let touched ← resolveAgainst gate pivot handle i negative touched
    resolveAll gate pivot negative rest touched

/-- Remove the clauses of a side, recorded with their literal of the variable. -/
def removeSide (literal : Literal) : List Handle → List Nat → Run Engine (List Nat)
  | [], touched => return touched
  | handle :: rest, touched => do
    let clause ← Engine.clause handle
    if clause.isDead then removeSide literal rest touched
    else do
      Engine.removeWithRecord handle literal
      removeSide literal rest (touched ++ clause.literals.map Literal.var)

/-- Replace the clauses with a variable by their resolvents. -/
def replaceByResolvents (pivot : Nat) (sides : GateSides) (redundant : List Handle)
    (touched : List Nat) : Work Eliminator (List Nat) := do
  let positive := Literal.ofVar pivot true
  let touched ← resolveAll sides.gate pivot sides.negative.toList.zipIdx
    sides.positive.toList.zipIdx touched
  let touched ← removeSide positive sides.positive.toList touched
  let touched ← removeSide positive.complement sides.negative.toList touched
  redundant.forM fun handle => (Engine.removeIfLive handle : Work Eliminator Unit)
  Engine.handle (.eliminated pivot)
  Engine.count fun tally => { tally with eliminated := tally.eliminated + 1 }
  if sides.gate.isSome then Engine.count fun tally => { tally with gates := tally.gates + 1 }
  return sortedNumbers (touched ++ [pivot])

/-- Eliminate a variable if the resolvents are few enough. -/
def decideElimination (pivot : Nat) (sides : GateSides) (redundant : List Handle)
    (touched : List Nat) : Work Eliminator (List Nat) := do
  match ← forecast sides.positive.toList sides.negative.toList pivot sides.gate with
  | none => return touched
  | some forecast =>
    let settings ← Engine.look fun engine => engine.settings
    let grown := (← Work.own).grown
    let old := sides.positive.size + sides.negative.size
    let growth := UInt64.ofNat (forecast.clauses - old)
    if UInt64.ofNat old + settings.growth < UInt64.ofNat forecast.clauses ||
        settings.totalGrowth < grown + growth then return touched
    else do
      Work.modifyOwn fun eliminator => { eliminator with grown := grown + growth }
      replaceByResolvents pivot sides redundant touched

/-- Look for a gate of a variable if gates are used. -/
def searchGate (pivot : Nat) (positive negative : Array Handle) : Run Engine GateSides :=
  Run.read fun engine => Gate.search? engine.arena pivot positive negative

/-- Remove the blocked clauses of a variable, then decide about the rest. -/
def afterBlocked (pivot : Nat) (sides : GateSides) (redundant : List Handle) :
    Work Eliminator (List Nat) := do
  let literal := Literal.ofVar pivot true
  let (enough, positive, touched) ← removeBlockedSide literal sides.positive []
  if enough then
    let (enough, negative, touched) ← removeBlockedSide literal.complement sides.negative touched
    if enough then
      let sides ←
        if sides.gate.isSome then searchGate pivot positive negative
        else pure ⟨positive, negative, none⟩
      decideElimination pivot sides redundant touched
    else return touched
  else return touched

/-- Try to eliminate a variable. The answer lists the variables whose occurrences
changed; it is empty if nothing happened. -/
def eliminate (pivot : Nat) : Work Eliminator (List Nat) := do
  let literal := Literal.ofVar pivot true
  let (positive, positiveRedundant) ← clausesWith literal
  let (negative, negativeRedundant) ← clausesWith literal.complement
  let redundant := positiveRedundant ++ negativeRedundant
  let settings ← Engine.look fun engine => engine.settings
  let sides : GateSides := ⟨positive.toArray, negative.toArray, none⟩
  let enough ← if settings.gates then Work.spend (positive.length + negative.length) else pure true
  if enough then
    let sides ←
      if settings.gates then searchGate pivot sides.positive sides.negative else pure sides
    if sides.gate.isNone && settings.skips positive.length negative.length then return []
    else if settings.blockedDuringElimination then afterBlocked pivot sides redundant
    else decideElimination pivot sides redundant []
  else return []

/-- Put a variable into the heap if it may be eliminated. -/
def offer (name : Nat) : Work Eliminator Unit := do
  if ← Engine.isRemovable name then onHeap fun index => VarHeap.insert index name

/-- Try the first variable of the heap. The answer says whether to go on. -/
def step : Work Eliminator Bool := do
  match ← onHeap VarHeap.select with
  | none => return false
  | some name =>
    if ← Work.spend 1 then
      if ← Engine.isRemovable name then
        let touched ← eliminate name
        if touched.isEmpty then return true
        else do
          Engine.propagateUnits
          onSubsumer Subsumer.drain
          (touched.filter (· != name)).forM offer
          return true
      else return true
    else return false

/-- How far elimination has come: the variables that are not eliminated, the live
clauses, and the variables in the heap. Every step eliminates a variable, or
removes clauses without that, or shortens the heap without either. -/
def progress (state : Tool Eliminator × Engine) : Nat × Nat × Nat :=
  (state.2.trail.vars.countP (fun v => !v.flags.eliminated),
    state.2.arena.slots.countP (fun clause => !clause.isDead),
    state.1.own.heap.size)

/-- The order of progress: by the first number that differs. -/
def Further (after before : Nat × Nat × Nat) : Prop :=
  after.1 < before.1 ∨
    (after.1 = before.1 ∧
      (after.2.1 < before.2.1 ∨ (after.2.1 = before.2.1 ∧ after.2.2 < before.2.2)))

instance (after before : Nat × Nat × Nat) : Decidable (Further after before) := by
  unfold Further; infer_instance

/-- Try variables until the heap is empty or the steps are used up, from a state
that has come this far. A step that made no progress would end the work without a
result; there is none. -/
def loop (reached : Nat × Nat × Nat) (state : Tool Eliminator × Engine) :
    Outcome (Tool Eliminator × Engine) Unit :=
  match step state with
  | .done true after =>
    if _further : Further (progress after) reached then loop (progress after) after
    else .stuck .outOfFuel
  | .done false after => .done () after
  | .failed cause after => .failed cause after
  | .stuck why => .stuck why
termination_by reached
decreasing_by
  simp only [Prod.lex_def]
  exact _further

/-- Eliminate variables one after the other. -/
def eliminateAll : Work Eliminator Unit := fun state => loop (progress state) state

/-- Eliminate variables as far as the limits allow. -/
def run : Work Eliminator Unit := do
  Engine.propagateUnits
  let numVars ← Engine.look Engine.numVars
  onHeap fun _ => Run.update fun heap => (heap.expand numVars).clear
  Work.modifyOwn fun eliminator => { eliminator with grown := 0 }
  (List.range' 1 numVars).forM offer
  eliminateAll
  onHeap fun _ => Run.update VarHeap.clear

/-- Run elimination once. -/
def process : Work Eliminator Status :=
  Work.process Settings.eliminationSteps
    (do let limit ← Engine.look fun engine => engine.stepLimit engine.settings.subsumptionSteps
        onSubsumer (Subsumer.start limit)
        run)
    fun run before budget after => .eliminated run
      (after.tally.eliminated - before.tally.eliminated)
      (after.tally.gates - before.tally.gates)
      (after.tally.blocked - before.tally.blocked) budget.used

end Eliminator

end CnfSimplifier
