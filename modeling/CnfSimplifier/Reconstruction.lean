import CnfSimplifier.Literal

/-!
# Model reconstruction

A clause that is taken out of the formula although it is not implied leaves a
record: the clause and a chosen literal in it. A model of the remaining formula
becomes a model of the whole one by going through the records from the last to
the first, making the chosen literal true wherever the clause is not satisfied.

The records share one array. Each begins with the separator literal, followed by
the chosen literal and the rest of the clause.
-/
namespace CnfSimplifier

/-- The values of the variables by index, `none` for an open one. -/
abbrev Model := Array (Option Bool)

/-- A removed clause, the chosen literal first. -/
structure Record where
  chosen : Literal
  rest : List Literal
deriving DecidableEq

namespace Record

/-- The whole clause of a record. -/
def literals (record : Record) : List Literal := record.chosen :: record.rest

/-- Whether a model satisfies some literal. Literals after the first true one are
not looked at; one outside the model is a bad access. -/
def satisfiedBy? (model : Model) : List Literal → Option Bool
  | [] => some false
  | literal :: rest => do
    let value ← model[literal.var]?
    if literal.isTrueUnder value then return true
    satisfiedBy? model rest

/-- Make the chosen literal true unless the clause is satisfied already. -/
def replay (record : Record) (model : Model) : Option Model := do
  if ← satisfiedBy? model record.literals then return model
  if record.chosen.var < model.size then
    return model.setIfInBounds record.chosen.var (some record.chosen.isPositive)
  none

end Record

/-- The stack of records. -/
structure Reconstruction where
  /-- All records in one array, each led by the separator. -/
  cells : Array Literal := #[]
  /-- How many records were pushed. -/
  count : Nat := 0
deriving Inhabited

namespace Reconstruction

/-- Push a record. The clause may mention the chosen literal or not. -/
def push (stack : Reconstruction) (chosen : Literal) (clause : List Literal) : Reconstruction where
  cells := ((stack.cells.push Literal.separator).push chosen) ++
    clause.filter fun literal => literal != chosen
  count := stack.count + 1

/-- The stretches between separators, in order. There is one more than there are
separators. -/
def stretches : List Literal → List (List Literal)
  | [] => [[]]
  | literal :: rest =>
    if literal = Literal.separator then [] :: stretches rest
    else
      match stretches rest with
      | [] => [[literal]]
      | first :: others => (literal :: first) :: others

/-- The record of a nonempty stretch. -/
def toRecord? : List Literal → Option Record
  | [] => none
  | chosen :: rest => some ⟨chosen, rest⟩

/-- The records from the last to the first. -/
def records (stack : Reconstruction) : List Record :=
  (stretches stack.cells.toList).reverse.filterMap toRecord?

/-- The number of cells, separators included. -/
def numCells (stack : Reconstruction) : Nat := stack.cells.size

/-- Whether nothing was pushed. -/
def isEmpty (stack : Reconstruction) : Bool := stack.count == 0

/-- Replay records in the given order. -/
def replayAll : List Record → Model → Option Model
  | [], model => some model
  | record :: rest, model => do
    let model ← record.replay model
    replayAll rest model

/-- Make every open variable true. Entry 0 belongs to no variable. -/
def complete (model : Model) : Model :=
  model.mapIdx fun i value => if i = 0 then value else some (value.getD true)

/-- Extend a model of the remaining formula to the variables that were removed. -/
def extend (stack : Reconstruction) (model : Model) : Option Model :=
  replayAll stack.records (complete model)

/-- The written form of the stack, the last record first. -/
def text (stack : Reconstruction) : String :=
  "Extension[" ++ String.join (stack.records.map fun record =>
    record.chosen.text ++ ":" ++ Literal.listText record.literals ++ " ") ++ "]"

end Reconstruction

end CnfSimplifier
