import CnfSimplifier.Tool

/-!
# Solving the binary clauses

The binary clauses on their own are solved in two layers. A variable without a
value gets one by assumption, in the temporary layer, together with everything it
implies. If that runs into a contradiction, the opposite value follows from the
clauses; it becomes permanent together with everything it implies, and all
assumptions are dropped. A contradiction in the permanent layer refutes the
formula. When no variable is left, the two layers satisfy every binary clause.

Permanent literals become root assignments. A full solution is kept as the
suggested phases of the variables.
-/
namespace CnfSimplifier

/-- The two layers of a solution, with the budget of the search. -/
structure TwoSat where
  /-- The literals that are true for good, by code. -/
  permanent : Array Bool
  /-- The literals that are true by assumption, by code. -/
  temporary : Array Bool
  /-- The literals that are true by assumption, oldest first. -/
  assumed : Array Literal := #[]
  /-- The literals that are true for good, oldest first. -/
  units : Array Literal := #[]
  budget : Budget

namespace TwoSat

/-- No values yet, over a number of variables. -/
def start (numVars : Nat) (budget : Budget) : TwoSat where
  permanent := Array.replicate (2 * (numVars + 1)) false
  temporary := Array.replicate (2 * (numVars + 1)) false
  budget := budget

/-- Whether a literal is true in one of the layers. -/
def isTrue? (layers : TwoSat) (literal : Literal) : Option Bool := do
  if ← layers.permanent[literal.index]? then return true
  layers.temporary[literal.index]?

/-- Spend steps. -/
def spend (interrupted : Bool) (layers : TwoSat) : Bool × TwoSat :=
  let (goOn, budget) := layers.budget.spend interrupted 1
  (goOn, { layers with budget := budget })

/-- Make a literal true by assumption. -/
def presume (literal : Literal) : Run TwoSat Unit :=
  Run.update fun layers =>
    if literal.index < layers.temporary.size then
      some { layers with
        temporary := layers.temporary.setIfInBounds literal.index true
        assumed := layers.assumed.push literal }
    else none

/-- Make a literal true for good. -/
def establish (literal : Literal) : Run TwoSat Unit :=
  Run.update fun layers =>
    if literal.index < layers.permanent.size then
      some { layers with
        permanent := layers.permanent.setIfInBounds literal.index true
        units := layers.units.push literal }
    else none

/-- Make the given literals true, unless one is false already. A step is spent on
each, whether or not one is left. -/
def spread (interrupted : Bool) (isTrue : TwoSat → Literal → Option Bool)
    (make : Literal → Run TwoSat Unit) : List Literal → Run TwoSat Bool
  | [] => return true
  | literal :: rest => do
    let _ ← modifyGet (spend interrupted)
    if ← Run.read fun layers => isTrue layers literal then spread interrupted isTrue make rest
    else if ← Run.read fun layers => isTrue layers literal.complement then return false
    else do
      make literal
      spread interrupted isTrue make rest

/-- Follow the implications of a layer's literals from a position on. -/
def follow (graph : Implications) (interrupted : Bool) (layer : TwoSat → Array Literal)
    (isTrue : TwoSat → Literal → Option Bool) (make : Literal → Run TwoSat Unit) :
    Nat → Nat → Run TwoSat Bool
  | 0, _ => Run.stop .outOfFuel
  | fuel + 1, position => do
    match (layer (← get))[position]? with
    | none => return true
    | some literal =>
      let successors ← Run.access (graph.successors? literal)
      if ← spread interrupted isTrue make successors.toList then
        follow graph interrupted layer isTrue make fuel (position + 1)
      else return false

/-- Whether a literal is true for good. -/
def isPermanent? (layers : TwoSat) (literal : Literal) : Option Bool :=
  layers.permanent[literal.index]?

/-- Assume a literal and everything it implies; the answer is `false` on a
contradiction. -/
def suppose (graph : Implications) (interrupted : Bool) (literal : Literal) :
    Run TwoSat Bool := do
  let layers ← get
  presume literal
  follow graph interrupted TwoSat.assumed isTrue? presume (layers.temporary.size + 2)
    layers.assumed.size

/-- Establish a literal and everything it implies; the answer is `false` on a
contradiction. -/
def conclude (graph : Implications) (interrupted : Bool) (literal : Literal) :
    Run TwoSat Bool := do
  let layers ← get
  if ← Run.access (layers.isPermanent? literal.complement) then return false
  else if ← Run.access (layers.isPermanent? literal) then return true
  else do
    establish literal
    follow graph interrupted TwoSat.units isPermanent? establish (layers.permanent.size + 2)
      layers.units.size

/-- Drop all assumptions. -/
def dropAssumptions (layers : TwoSat) : TwoSat :=
  { layers with
    temporary := layers.assumed.foldl (fun table literal =>
      table.setIfInBounds literal.index false) layers.temporary
    assumed := #[] }

/-- Whether a variable needs no decision: it has a value at the root or in a
layer, or it is in no binary clause. -/
def isSettled? (trail : Trail) (graph : Implications) (layers : TwoSat) (name : Nat) :
    Option Bool := do
  let positive := Literal.ofVar name true
  let negative := positive.complement
  if (← trail.value? name).isSome then return true
  let forward ← graph.successors? positive
  let backward ← graph.successors? negative
  if forward.isEmpty && backward.isEmpty then return true
  if ← layers.isTrue? positive then return true
  layers.isTrue? negative

/-- The literal to assume for a variable: its suggested phase, else false. -/
def preferred? (trail : Trail) (name : Nat) : Option Literal :=
  (trail.vars[name]?).map fun state => Literal.ofVar name (state.phase.getD false)

/-- Go through the variables from one on, and start over after each permanent
literal. The answer is `false` if the steps are used up. -/
def solveLoop (trail : Trail) (graph : Implications) (interrupted : Bool) :
    Nat → Nat → Run TwoSat Bool
  | 0, _ => Run.stop .outOfFuel
  | fuel + 1, name => do
    if trail.numVars < name then return true
    else if ← modifyGet (spend interrupted) then
      if ← Run.read fun layers => isSettled? trail graph layers name then
        solveLoop trail graph interrupted fuel (name + 1)
      else
        let literal ← Run.access (preferred? trail name)
        if ← suppose graph interrupted literal then
          solveLoop trail graph interrupted fuel (name + 1)
        else do
          modify dropAssumptions
          if ← conclude graph interrupted literal.complement then
            solveLoop trail graph interrupted fuel 1
          else Run.fail .inconsistent
    else return false

/-- Solve the binary clauses. Each start over follows a new permanent literal, so
there are no more of them than literals. -/
def solve (trail : Trail) (graph : Implications) (interrupted : Bool) : Run TwoSat Bool :=
  solveLoop trail graph interrupted ((2 * trail.numVars + 3) * (trail.numVars + 2)) 1

/-- Assign the literals found for a refutation. -/
def assignAll : List Literal → Run Engine Unit
  | [] => pure ()
  | literal :: rest => do
    Engine.assignUnit literal
    assignAll rest

/-- Assign the permanent literals that are still open. -/
def assignOpen : List Literal → Run Engine Unit
  | [] => pure ()
  | literal :: rest => do
    if (← Engine.literalValue literal).isNone then
      Engine.assignUnit literal
      Engine.count fun tally => { tally with twoSatUnits := tally.twoSatUnits + 1 }
    assignOpen rest

/-- Keep the value of a variable as its phase. -/
def keepPhase (layers : TwoSat) (name : Nat) : Run Engine Unit := do
  let positive := Literal.ofVar name true
  if ← Run.access (layers.isTrue? positive) then
    Engine.updateTrail fun trail => trail.setPhase name true
  else if ← Run.access (layers.isTrue? positive.complement) then
    Engine.updateTrail fun trail => trail.setPhase name false

/-- Solve with the budget of the tool; a refutation is an answer as well. -/
def solveWithin (graph : Implications) : Work Unit (Except Error Bool × TwoSat) :=
  fun (tool, engine) =>
    match solve engine.trail graph engine.interrupted (start engine.numVars tool.budget) with
    | .done solved layers =>
      .done (.ok solved, layers) ({ tool with budget := layers.budget }, engine)
    | .failed cause layers =>
      .done (.error cause, layers) ({ tool with budget := layers.budget }, engine)
    | .stuck why => .stuck why

/-- Solve the binary clauses and use what comes out. -/
def run : Work Unit Unit := do
  Engine.propagateUnits
  let graph ← Engine.implications
  if graph.numEdges = 0 then pure ()
  else
    match ← solveWithin graph with
    | (.error cause, layers) =>
      assignAll layers.units.toList
      Run.fail cause
    | (.ok solved, layers) =>
      assignOpen layers.units.toList
      if solved then
        let numVars ← Engine.look Engine.numVars
        (List.range' 1 numVars).forM fun name => (keepPhase layers name : Work Unit Unit)
      Engine.propagateUnits

/-- Run the solver of binary clauses once. -/
def process : Work Unit Status :=
  Work.process Settings.twoSatSteps run fun run before budget after =>
    .binariesSolved run (after.tally.twoSatUnits - before.tally.twoSatUnits) budget.used

end TwoSat

end CnfSimplifier
