import CnfSimplifier.SearchSolver

/-!
# A solver that refuses

A small solver with appointments for refusals. It shows how an exchange copes
with a solver that fails in the middle of it.
-/
namespace CnfSimplifier

/-- The calls that can be refused. -/
inductive SolverCall where
  | assign
  | addClause
  | propagate
deriving DecidableEq

/-- A refusal that is due after a number of calls. -/
structure Appointment where
  call : SolverCall
  after : Nat
  cause : Error

/-- A solver with appointments. -/
structure RefusingSolver where
  solver : SearchSolver := {}
  appointments : List Appointment := []

namespace RefusingSolver

/-- Consult the appointments before a call: the first one that is due is taken
off, and those before it come a call nearer. -/
def consult (call : SolverCall) : List Appointment → Option Error × List Appointment
  | [] => (none, [])
  | appointment :: rest =>
    if appointment.call = call then
      match appointment.after with
      | 0 => (some appointment.cause, rest)
      | later + 1 =>
        let (cause, rest) := consult call rest
        (cause, { appointment with after := later } :: rest)
    else
      let (cause, rest) := consult call rest
      (cause, appointment :: rest)

/-- Use the solver. -/
def onSolver {α : Type} (body : Run SearchSolver α) : Run RefusingSolver α := fun refusing =>
  match body refusing.solver with
  | .done value solver => .done value { refusing with solver := solver }
  | .failed cause solver => .failed cause { refusing with solver := solver }
  | .stuck why => .stuck why

/-- Make a call unless a refusal is due. -/
def unlessRefused (call : SolverCall) (body : Run SearchSolver Unit) :
    Run RefusingSolver Unit := do
  let due ← modifyGet fun refusing =>
    let (due, appointments) := consult call refusing.appointments
    (due, { refusing with appointments := appointments })
  match due with
  | some cause => Run.fail cause
  | none => onSolver body

instance : Solver RefusingSolver where
  numVars refusing := refusing.solver.numVars
  isConsistent refusing := !refusing.solver.inconsistent
  rootLiterals refusing := refusing.solver.trail
  assign literal := unlessRefused .assign (SearchSolver.assign literal)
  propagate := unlessRefused .propagate SearchSolver.propagate
  takeClauses := onSolver SearchSolver.takeClauses
  addClause clause := unlessRefused .addClause (SearchSolver.addClause clause)
  suggestPhase literal := onSolver (SearchSolver.suggestPhase literal)

end RefusingSolver

end CnfSimplifier
