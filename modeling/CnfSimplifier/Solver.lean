import CnfSimplifier.Simplifier

/-!
# Exchange with a solver

A solver that can hand its formula over and take the simplified one back. Its
literals are signed integers in the exported numbering. In a round trip the
formula is moved out of the solver, simplified and moved back; values that the
solver has found become root assignments, and phases are suggested to it.

If the formula cannot be taken over, the solver gets its clauses back and nothing
is simplified.
-/
namespace CnfSimplifier

/-- What a solver has to offer. -/
class Solver (σ : Type) where
  numVars : σ → Nat
  /-- Whether the solver has not refuted its formula. -/
  isConsistent : σ → Bool
  /-- The literals that are true at the root. -/
  rootLiterals : σ → List Int
  /-- Assign a literal at the root. -/
  assign : Int → Run σ Unit
  /-- Propagate at the root. -/
  propagate : Run σ Unit
  /-- Hand all clauses over. -/
  takeClauses : Run σ (List (List Int))
  addClause : List Int → Run σ Unit
  /-- Suggest a value for a variable. -/
  suggestPhase : Int → Run σ Unit

namespace Solver

variable (σ : Type) [Solver σ]

instance : MonadLift (Run Simplifier) (Run (σ × Simplifier)) := ⟨Run.onSecond⟩

/-- Ask the solver. -/
abbrev ask {σ α : Type} (body : Run σ α) : Run (σ × Simplifier) α := Run.onFirst body

/-- The literal for an exported one; variables are added on demand. -/
def importLiteral (value : Int) : Run Simplifier Literal := do
  if value = 0 then Run.fail .invalidLiteral
  else
    let literal := Literal.ofInt value
    Simplifier.reserveExported literal.var
    let numbering := (← get).numbering
    if numbering.isActive then
      match numbering.ofNumbered? literal with
      | none => Run.fail .outOfRange
      | some inner =>
        Simplifier.checkPresent inner
        return inner
    else do
      Simplifier.checkPresent literal
      return literal

/-- The literals for exported ones. -/
def importLiterals : List Int → Run Simplifier (List Literal)
  | [] => return []
  | value :: rest => do
    let literal ← importLiteral value
    let others ← importLiterals rest
    return literal :: others

/-- The clauses for exported ones. -/
def importClauses : List (List Int) → Run Simplifier (List (List Literal))
  | [] => return []
  | clause :: rest => do
    let literals ← importLiterals clause
    let others ← importClauses rest
    return literals :: others

/-- Add clauses to the formula. -/
def storeAll : List (List Literal) → Run Engine Unit
  | [] => pure ()
  | literals :: rest => do
    let _ ← Engine.importClause literals false
    storeAll rest

/-- Give clauses to the solver. -/
def giveAll {σ : Type} [Solver σ] : List (List Int) → Run σ Unit
  | [] => pure ()
  | clause :: rest => do
    Solver.addClause clause
    giveAll rest

/-- Replace the formula by that of the solver. -/
def takeOver : Run (σ × Simplifier) Unit := do
  let (solver, _) ← get
  Simplifier.reserveExported (Solver.numVars solver)
  let root := Solver.rootLiterals solver
  let clauses ← ask (Solver.takeClauses : Run σ (List (List Int)))
  let result ← (do
    let units ← importLiterals root
    let literals ← importClauses clauses
    return units.map (fun unit => [unit]) ++ literals : Run Simplifier (List (List Literal))).attempt
  match result with
  | .error cause =>
    (Engine.tell (.importFailed cause) : Run Simplifier Unit)
    ask (giveAll clauses : Run σ Unit)
    Run.fail cause
  | .ok imported =>
    (Engine.releaseClauses : Run Simplifier Unit)
    Simplifier.collectGarbage
    (storeAll imported : Run Simplifier Unit)

/-- Give exported clauses to the solver, units as assignments. -/
def giveExported {σ : Type} [Solver σ] : List (List Int) → Run σ Unit
  | [] => pure ()
  | clause :: rest => do
    match clause with
    | [literal] => Solver.assign literal
    | _ => Solver.addClause clause
    giveExported rest

/-- The suggested phases in the exported numbering. -/
def exportedPhases (simplifier : Simplifier) : List Int :=
  (List.range' 1 simplifier.numVars).filterMap fun name => do
    let state ← simplifier.engine.trail.vars[name]?
    let phase ← state.phase
    let literal ← simplifier.exportedLiteral? (Literal.ofVar name phase)
    return literal.toInt

/-- Suggest phases to the solver. -/
def suggestAll {σ : Type} [Solver σ] : List Int → Run σ Unit
  | [] => pure ()
  | literal :: rest => do
    Solver.suggestPhase literal
    suggestAll rest

/-- Give the formula and the phases to the solver. -/
def handBack : Run (σ × Simplifier) Unit := do
  let (_, simplifier) ← get
  ask (giveExported simplifier.exportedClauses : Run σ Unit)
  ask (Solver.propagate : Run σ Unit)
  ask (suggestAll (exportedPhases simplifier) : Run σ Unit)

/-- Draw a conclusion in the simplifier. -/
def conclude (cause : Error) : Run (σ × Simplifier) Status :=
  (Engine.conclude (.error cause) : Run Simplifier Status)

/-- Simplify the formula that was taken over, and hand it back. -/
def simplifyAndHandBack (inprocessing : Bool) : Run (σ × Simplifier) Status := do
  let status ← Simplifier.run inprocessing
  let exported ← (handBack σ).attempt
  let (solver, _) ← get
  Simplifier.reserveExported (Solver.numVars solver)
  match exported with
  | .ok () => return status
  | .error cause =>
    if cause.isUnsat then
      let _ ← conclude σ cause
      return .unsat
    else do
      (Engine.tell (.exportFailed cause) : Run Simplifier Unit)
      return status

/-- Draw the conclusion from a formula that could not be taken over. If it was
refuted the solver gets the empty clause, since its clauses were taken. -/
def giveUp (cause : Error) : Run (σ × Simplifier) Status := do
  let status ← conclude σ cause
  if status = .unsat then
    match ← (handBack σ).attempt with
    | .ok () => return status
    | .error cause =>
      (Engine.tell (.emptyExportFailed cause) : Run Simplifier Unit)
      return status
  else return status

/-- Whether the solver has refuted its formula, or does so now at the root. -/
def isRefuted : Run (σ × Simplifier) Bool := do
  let (solver, _) ← get
  if Solver.isConsistent solver then
    match ← (ask (Solver.propagate : Run σ Unit)).attempt with
    | .ok () => return false
    | .error _ => return true
  else return true

/-- Move the formula out of the solver, simplify it, and move it back. -/
def roundTrip (inprocessing : Bool) : Run (σ × Simplifier) Status := do
  if ← isRefuted σ then
    let _ ← conclude σ .inconsistent
    return .unsat
  else
    match ← (takeOver σ).attempt with
    | .error cause => giveUp σ cause
    | .ok () => simplifyAndHandBack σ inprocessing

end Solver

end CnfSimplifier
