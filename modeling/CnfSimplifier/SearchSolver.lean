import CnfSimplifier.Solver

/-!
# A small solver

A solver by exhaustive search with unit propagation, enough to take part in an
exchange. Clauses are propagated in passes in their order until a pass finds
nothing. The search gives the first open variable of the clauses the value true
and then false.

Values of the search are numbers: 1 for true, -1 for false and 0 for open. A
literal has the value of its variable times its sign.
-/
namespace CnfSimplifier

/-- A solver by search. -/
structure SearchSolver where
  numVars : Nat := 0
  clauses : List (List Int) := []
  /-- The literals that are true at the root, oldest first. -/
  trail : List Int := []
  /-- The suggestions received so far. -/
  phases : List Int := []
  /-- Whether the formula was refuted. -/
  inconsistent : Bool := false

namespace SearchSolver

/-! ## Exchange -/

/-- Make room for a literal. -/
def grow (solver : SearchSolver) (literal : Int) : SearchSolver :=
  { solver with numVars := max solver.numVars literal.natAbs }

/-- Assign a literal at the root. -/
def assign (literal : Int) : Run SearchSolver Unit := do
  modify fun solver => solver.grow literal
  let solver ← get
  if solver.trail.contains (-literal) then
    modify fun solver => { solver with inconsistent := true }
    Run.fail (.rootConflict (Literal.ofInt literal))
  else if solver.trail.contains literal then pure ()
  else modify fun solver => { solver with trail := solver.trail ++ [literal] }

/-- One pass over clauses; the answer says whether a literal was found. -/
def propagatePass : List (List Int) → Bool → Run SearchSolver Bool
  | [], found => return found
  | clause :: rest, found => do
    let trail := (← get).trail
    if clause.any fun l => trail.contains l then propagatePass rest found
    else
      match clause.filter fun l => !trail.contains (-l) with
      | [] =>
        modify fun solver => { solver with inconsistent := true }
        Run.fail .inconsistent
      | [literal] =>
        modify fun solver => { solver with trail := solver.trail ++ [literal] }
        propagatePass rest true
      | _ => propagatePass rest found

/-- Passes until one finds nothing. -/
def propagateLoop : Nat → Run SearchSolver Unit
  | 0 => Run.stop .outOfFuel
  | fuel + 1 => do
    let clauses := (← get).clauses
    if ← propagatePass clauses false then propagateLoop fuel else pure ()

/-- Propagate at the root. Every pass but the last finds a literal of a clause
that was not on the trail. -/
def propagate : Run SearchSolver Unit := do
  let clauses := (← get).clauses
  propagateLoop (clauses.flatten.length + 2)

/-- Hand all clauses over. -/
def takeClauses : Run SearchSolver (List (List Int)) :=
  modifyGet fun solver => (solver.clauses, { solver with clauses := [] })

/-- Add a clause; the empty clause refutes the formula. -/
def addClause (clause : List Int) : Run SearchSolver Unit := do
  if clause.isEmpty then
    modify fun solver => { solver with inconsistent := true }
    Run.fail .emptyClause
  else
    modify fun solver =>
      let solver := clause.foldl grow solver
      { solver with clauses := solver.clauses ++ [clause] }

/-- Note a suggestion. -/
def suggestPhase (literal : Int) : Run SearchSolver Unit :=
  modify fun solver => { solver with phases := solver.phases ++ [literal] }

instance : Solver SearchSolver where
  numVars := numVars
  isConsistent solver := !solver.inconsistent
  rootLiterals := trail
  assign := assign
  propagate := propagate
  takeClauses := takeClauses
  addClause := addClause
  suggestPhase := suggestPhase

/-! ## Search -/

/-- The value of a literal. -/
def valueOf (values : Array Int) (literal : Int) : Except Breakdown Int :=
  match values[literal.natAbs]? with
  | some value => .ok (value * literal.sign)
  | none => .error .badAccess

/-- Whether some literal is true; literals after the first true one are not
looked at. -/
def anyTrue (values : Array Int) : List Int → Except Breakdown Bool
  | [] => .ok false
  | literal :: rest => do
    if (← valueOf values literal) = 1 then return true
    anyTrue values rest

/-- The open literals. -/
def openLiterals (values : Array Int) : List Int → Except Breakdown (List Int)
  | [] => .ok []
  | literal :: rest => do
    let value ← valueOf values literal
    let others ← openLiterals values rest
    return if value = 0 then literal :: others else others

/-- One pass of propagation: the values after it and whether one was found, or
`none` if a clause is false. -/
def searchPass : List (List Int) → Array Int → Bool →
    Except Breakdown (Option (Array Int × Bool))
  | [], values, found => .ok (some (values, found))
  | clause :: rest, values, found => do
    if ← anyTrue values clause then searchPass rest values found
    else
      match ← openLiterals values clause with
      | [] => return none
      | [literal] => searchPass rest (values.setIfInBounds literal.natAbs literal.sign) true
      | _ => searchPass rest values found

/-- Passes until one finds nothing; `none` if a clause is false. -/
def searchPropagate (clauses : List (List Int)) :
    Nat → Array Int → Except Breakdown (Option (Array Int))
  | 0, _ => .error .outOfFuel
  | fuel + 1, values => do
    match ← searchPass clauses values false with
    | none => return none
    | some (values, true) => searchPropagate clauses fuel values
    | some (values, false) => return some values

/-- The first open variable. -/
def firstOpen (values : Array Int) : List Nat → Except Breakdown (Option Nat)
  | [] => .ok none
  | name :: rest =>
    match values[name]? with
    | none => .error .badAccess
    | some value => if value = 0 then .ok (some name) else firstOpen values rest

/-- Search for values that satisfy all clauses, starting from some. -/
def search (clauses : List (List Int)) :
    Nat → Array Int → Except Breakdown (Option (Array Int))
  | 0, _ => .error .outOfFuel
  | fuel + 1, values => do
    match ← searchPropagate clauses (values.size + 2) values with
    | none => return none
    | some values =>
      match ← firstOpen values (clauses.flatten.map Int.natAbs) with
      | none => return some values
      | some name =>
        match ← search clauses fuel (values.setIfInBounds name 1) with
        | some solution => return some solution
        | none => search clauses fuel (values.setIfInBounds name (-1))

/-- The values of the root literals. -/
def rootValues : List Int → Array Int → Except Breakdown (Array Int)
  | [], values => .ok values
  | literal :: rest, values =>
    if literal.natAbs < values.size then
      rootValues rest (values.setIfInBounds literal.natAbs literal.sign)
    else .error .badAccess

/-- A model as a list of literals, open variables true; `none` if there is none.
Every level of the search gives an open variable a value. -/
def solve (solver : SearchSolver) : Except Breakdown (Option (List Int)) :=
  if solver.inconsistent then .ok none
  else do
    let values ← rootValues solver.trail (Array.replicate (solver.numVars + 1) 0)
    match ← search solver.clauses (solver.numVars + 2) values with
    | none => return none
    | some values =>
      return some ((List.range' 1 solver.numVars).map fun (name : Nat) =>
        if (values[name]?).getD 0 < 0 then -(name : Int) else (name : Int))

end SearchSolver

end CnfSimplifier
