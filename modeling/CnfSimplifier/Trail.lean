import CnfSimplifier.Flags
import CnfSimplifier.Event
import CnfSimplifier.Outcome
import CnfSimplifier.Occurrences

/-!
# Assignments

The values of the variables, in the order in which they were given. Values at
the root are facts of the formula. Above the root there are decision levels, each
opened by a decision and closed again by cancelling; probing works there.

Propagation visits the clauses in which a literal became false and assigns the
last free literal of a clause whose other literals are all false. It reads the
occurrence index and tolerates handles of dead or stale clauses in it.
-/
namespace CnfSimplifier

/-- What is known about one variable. -/
structure VarState where
  value : Option Bool := none
  /-- The decision level at which the value was given. -/
  level : Nat := 0
  flags : VarFlags := {}
  /-- The suggested value, for a solver that goes on with the formula. -/
  phase : Option Bool := none
deriving DecidableEq, Inhabited

/-- A short written form: a mark for the value, a letter for each flag that is on,
and a letter for the phase. -/
def VarState.text (state : VarState) : String :=
  mark state.value "+" "-" "." ++
    String.join (VarFlag.all.filterMap fun flag =>
      if state.flags.has flag then some flag.letter else none) ++
    mark state.phase "p" "n" ""
where
  /-- The mark of a value. -/
  mark (value : Option Bool) (whenTrue whenFalse whenNone : String) : String :=
    match value with
    | some true => whenTrue
    | some false => whenFalse
    | none => whenNone

/-- The assignment with its history. Entry 0 of `vars` belongs to no variable. -/
structure Trail where
  vars : Array VarState := #[{}]
  /-- The true literals, oldest first. -/
  literals : Array Literal := #[]
  /-- Where on the trail each decision level begins. -/
  levels : Array Nat := #[]
  /-- The first literal of the trail that was not propagated yet. -/
  head : Nat := 0
  /-- How many variables were eliminated. -/
  eliminated : Nat := 0
  /-- How many variables were substituted. -/
  substituted : Nat := 0
deriving Inhabited

namespace Trail

/-- The empty assignment over a number of variables. -/
def ofVars (numVars : Nat) : Trail := { vars := Array.replicate (numVars + 1) {} }

/-- The number of variables. -/
def numVars (trail : Trail) : Nat := trail.vars.size - 1

/-- The current decision level; zero is the root. -/
def level (trail : Trail) : Nat := trail.levels.size

/-- The value of a variable. -/
def value? (trail : Trail) (name : Nat) : Option (Option Bool) :=
  (trail.vars[name]?).map VarState.value

/-- The value of a literal. -/
def literalValue? (trail : Trail) (literal : Literal) : Option (Option Bool) :=
  (trail.value? literal.var).map literal.valueUnder

/-- The marks of a variable. -/
def flags? (trail : Trail) (name : Nat) : Option VarFlags :=
  (trail.vars[name]?).map VarState.flags

/-- Whether there can be another variable. A literal has 31 bits for its variable. -/
def hasRoom (trail : Trail) : Bool := trail.vars.size < 0x80000000

/-- Change what is known about a variable. -/
def modify? (trail : Trail) (name : Nat) (change : VarState → VarState) : Option Trail :=
  if name < trail.vars.size then some { trail with vars := trail.vars.modify name change }
  else none

/-- Switch a mark of a variable. -/
def setFlag (trail : Trail) (name : Nat) (flag : VarFlag) (on : Bool) : Option Trail :=
  trail.modify? name fun state => { state with flags := state.flags.set flag on }

/-- Suggest a value for a variable. -/
def setPhase (trail : Trail) (name : Nat) (phase : Bool) : Option Trail :=
  trail.modify? name fun state => { state with phase := some phase }

/-- Whether some literal is true. Literals after the first true one are not
looked at. -/
def satisfies? (trail : Trail) : List Literal → Option Bool
  | [] => some false
  | literal :: rest => do
    if (← trail.literalValue? literal) = some true then return true
    trail.satisfies? rest

/-- How many literals were assigned at the root. -/
def numRoot (trail : Trail) : Nat := trail.levels.getD 0 trail.literals.size

/-- The literals that are true at the root, oldest first. -/
def rootLiterals (trail : Trail) : List Literal := trail.literals.toList.take trail.numRoot

/-- How many variables are neither assigned at the root nor removed, as a word. -/
def numOpen (trail : Trail) : UInt64 :=
  wordOf (trail.numVars - trail.numRoot - trail.eliminated - trail.substituted)

/-- The values by variable; entry 0 belongs to none. -/
def values (trail : Trail) : Array (Option Bool) := trail.vars.map VarState.value

/-- Follow an event. -/
def handle (trail : Trail) : Event → Option Trail
  | .newVar => some { trail with vars := trail.vars.push {} }
  | .eliminated name => do
    let trail ← trail.setFlag name .eliminated true
    return { trail with eliminated := trail.eliminated + 1 }
  | .substituted name => do
    let trail ← trail.setFlag name .substituted true
    return { trail with substituted := trail.substituted + 1 }
  | .reinitialized =>
    some { trail with vars := trail.vars.map fun state => { state with phase := none } }
  | .asserted _ => some trail

/-- Give a literal's variable the value that makes the literal true. -/
def push (trail : Trail) (literal : Literal) (level : Nat) : Option Trail := do
  let trail ← trail.modify? literal.var fun state =>
    { state with value := some literal.isPositive, level := level }
  return { trail with literals := trail.literals.push literal }

/-- Assign a literal at the current level. -/
def imply (trail : Trail) (literal : Literal) : Option Trail := trail.push literal trail.level

/-- Open a new level and assign a literal there. -/
def openLevel (trail : Trail) (literal : Literal) : Option Trail :=
  let trail := { trail with levels := trail.levels.push trail.literals.size }
  trail.push literal trail.level

/-- Take back the values of some literals. -/
def unassign (trail : Trail) : List Literal → Option Trail
  | [] => some trail
  | literal :: rest => do
    let trail ← trail.modify? literal.var fun state => { state with value := none }
    trail.unassign rest

/-- Close all levels above a given one. -/
def cancelUntil (trail : Trail) (level : Nat) : Option Trail :=
  match trail.levels[level]? with
  | none => some trail
  | some start => do
    let trail ← trail.unassign (trail.literals.toList.drop start)
    return { trail with
      literals := trail.literals.take start
      levels := trail.levels.take level
      head := min trail.head start }

/-- Assign a literal at the root, closing all levels first. -/
def assignAtRoot (literal : Literal) : Run Trail Unit := do
  Run.update fun trail => trail.cancelUntil 0
  let trail ← get
  if trail.numVars < literal.var then Run.fail .outOfRange
  else
    match ← Run.access (trail.value? literal.var) with
    | none => Run.update fun trail => trail.push literal 0
    | some value =>
      if value = literal.isPositive then pure () else Run.fail (.rootConflict literal)

/-- How a clause stands under an assignment. -/
inductive Standing where
  /-- Some literal is true, or two literals are free. -/
  | settled
  /-- One literal is free and all others are false. -/
  | unit (literal : Literal)
  /-- All literals are false. -/
  | falsified

/-- Scan the literals of a clause, with the free literal met so far. -/
def standing? (trail : Trail) : List Literal → Option Literal → Option Standing
  | [], none => some .falsified
  | [], some free => some (.unit free)
  | literal :: rest, free => do
    match ← trail.literalValue? literal with
    | some true => return .settled
    | some false => trail.standing? rest free
    | none =>
      match free with
      | none => trail.standing? rest (some literal)
      | some _ => return .settled

/-- Visit the clauses listed for a literal that became false. The answer is a
falsified clause, if one was met. -/
def visit (arena : Arena) (falsified : Literal) : List Handle → Run Trail (Option Handle)
  | [] => pure none
  | handle :: rest =>
    match arena.get? handle with
    | none => visit arena falsified rest
    | some clause =>
      if clause.isDead || !clause.contains falsified then visit arena falsified rest
      else do
        match ← Run.read fun trail => trail.standing? clause.literals none with
        | .settled => visit arena falsified rest
        | .unit literal =>
          Run.update fun trail => trail.imply literal
          visit arena falsified rest
        | .falsified =>
          modify fun trail => { trail with head := trail.literals.size }
          return some handle

/-- Propagate the literals from the head of the trail on. -/
def propagateLoop (arena : Arena) (index : Occurrences) : Nat → Run Trail (Option Handle)
  | 0 => Run.stop .outOfFuel
  | fuel + 1 => do
    let trail ← get
    match trail.literals[trail.head]? with
    | none => return none
    | some literal =>
      modify fun trail => { trail with head := trail.head + 1 }
      let falsified := literal.complement
      let handles ← Run.access (index.list? falsified)
      match ← visit arena falsified handles.toList with
      | some conflict => return some conflict
      | none => propagateLoop arena index fuel

/-- The number of variables without a value. -/
def numUnassigned (trail : Trail) : Nat := trail.vars.countP fun state => state.value.isNone

/-- Propagate to the end, or to a falsified clause. Every round takes one literal
off the queue, and a literal enters it only when a variable gets a value. -/
def propagate (arena : Arena) (index : Occurrences) : Run Trail (Option Handle) := do
  let trail ← get
  propagateLoop arena index (trail.literals.size - trail.head + trail.numUnassigned + 1)

/-- Propagate at the root; a falsified clause makes the formula inconsistent. -/
def propagateAtRoot (arena : Arena) (index : Occurrences) : Run Trail Unit := do
  match ← propagate arena index with
  | none => pure ()
  | some _ => Run.fail .inconsistent

/-- The literals of each decision level with its number. -/
def levelLiterals (trail : Trail) : List (Nat × List Literal) :=
  trail.levels.toList.zipIdx.map fun (start, i) =>
    let stop := trail.levels.getD (i + 1) trail.literals.size
    (i + 1, (trail.literals.extract start stop).toList)

/-- The written form of an assignment: the root first, then every level. -/
def text (trail : Trail) : String :=
  let opening := "ASG:: trail(" ++ toString trail.literals.size ++ "):"
  let root := opening ++ Literal.listText trail.rootLiterals
  if trail.levels.isEmpty then root
  else
    let level := fun (number, literals) =>
      "(" ++ toString (number : Nat) ++ ", " ++ Literal.listText literals ++ ")"
    root ++ "\n      [" ++ ", ".intercalate (trail.levelLiterals.map level) ++ "]"

end Trail

end CnfSimplifier
