import CnfSimplifier.Tool

/-!
# Numbering without gaps

The variables that are still needed, those in live clauses, protected ones and
those with a value at the root, get consecutive numbers from 1 on, in order. The
engine keeps its own variables; only formulas that leave it and models that come
back use the numbers. Variables that appear later are numbered on.
-/
namespace CnfSimplifier

/-- A numbering, if one is in effect: the variables in the order of their
numbers. -/
structure Numbering where
  numbered : Option (Array Nat) := none
deriving Inhabited

namespace Numbering

/-- Whether a numbering is in effect. -/
def isActive (numbering : Numbering) : Bool := numbering.numbered.isSome

/-- The variables in the order of their numbers. -/
def names (numbering : Numbering) : Array Nat := numbering.numbered.getD #[]

/-- How many variables have a number. -/
def size (numbering : Numbering) : Nat := numbering.names.size

/-- The place of a variable in a list counted from a first place, the last one if
there are several. -/
def lastPlace? (name : Nat) : List Nat → Nat → Option Nat
  | [], _ => none
  | other :: rest, place =>
    match lastPlace? name rest (place + 1) with
    | some later => some later
    | none => if other = name then some place else none

/-- The number of a variable. -/
def number? (numbering : Numbering) (name : Nat) : Option Nat :=
  lastPlace? name numbering.names.toList 1

/-- The numbered literal of a literal. -/
def toNumbered? (numbering : Numbering) (literal : Literal) : Option Literal :=
  (numbering.number? literal.var).map fun number => Literal.ofVar number literal.isPositive

/-- The variable of a number. -/
def varOf? (numbering : Numbering) (number : Nat) : Option Nat :=
  match number with
  | 0 => none
  | place + 1 => (numbering.names[place]?).filter (0 < ·)

/-- The literal of a numbered literal. -/
def ofNumbered? (numbering : Numbering) (literal : Literal) : Option Literal :=
  (numbering.varOf? literal.var).map fun name => Literal.ofVar name literal.isPositive

/-- Number one more variable; the answer is its number. -/
def push (numbering : Numbering) (name : Nat) : Nat × Numbering :=
  let names := numbering.names.push name
  (names.size, ⟨some names⟩)

/-- Give the variables the values of their numbers; all others stay open. -/
def spread (model : Model) : List (Nat × Nat) → Model → Option Model
  | [], result => some result
  | (name, place) :: rest, result =>
    match (model[place + 1]?).join with
    | none => spread model rest result
    | some value =>
      if name < result.size then spread model rest (result.setIfInBounds name (some value))
      else none

/-- The model over a number of variables that a model over the numbers stands
for. -/
def decompress (numbering : Numbering) (model : Model) (numVars : Nat) : Option Model :=
  spread model numbering.names.toList.zipIdx (Array.replicate (numVars + 1) none)

/-- Mark the variables of some clauses as needed. -/
def markUsed? : List Clause → Array Bool → Option (Array Bool)
  | [], used => some used
  | clause :: rest, used =>
    if clause.literals.all fun l => l.var < used.size then
      markUsed? rest (clause.literals.foldl (fun used l => used.setIfInBounds l.var true) used)
    else none

/-- The variables that are still needed, in order. -/
def needed? (engine : Engine) : Option (Array Nat) := do
  let used ← markUsed? engine.arena.liveClauses (Array.replicate (engine.numVars + 1) false)
  let isNeeded := fun name =>
    (used[name]?).getD false ||
      ((engine.trail.vars[name]?).map fun state =>
        state.flags.frozen || state.value.isSome).getD false
  return ((List.range' 1 engine.numVars).filter isNeeded).toArray

/-- Number the variables that are needed now. -/
def build : Work Numbering Unit := do
  let engine ← (get : Run Engine Engine)
  engine.arena.liveClauses.forM fun clause => do
    let _ ← Work.spend clause.size
    pure ()
  let names ← Run.access (needed? engine)
  Work.modifyOwn fun _ => ⟨some names⟩

/-- Number the variables once. -/
def process : Work Numbering Status := do
  let run ← Work.beginRun
  Work.startBudget 0xFFFFFFFFFFFFFFFF
  build
  let numVars ← Engine.look Engine.numVars
  let numbering ← Work.own
  Engine.tell (.renumbered run numVars numbering.size)
  Engine.conclude (.ok ())

end Numbering

end CnfSimplifier
