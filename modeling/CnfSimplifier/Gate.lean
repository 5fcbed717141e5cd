import CnfSimplifier.Arena

/-!
# Gates

A literal `g` is the output of an AND gate if the formula has a clause of `g` and
some further literals, and for each further literal `l` the binary clause of the
complements of `g` and `l`. These clauses define `g`, so elimination of its
variable needs only the resolvents of a defining clause with another one.

The search looks through the clauses with the variable and moves the defining
ones to the front.
-/
namespace CnfSimplifier

/-- The clauses with a variable by sign, and how many in front of each list
define it, if it is the output of a gate. -/
structure GateSides where
  positive : Array Handle
  negative : Array Handle
  gate : Option (Nat × Nat)

namespace Gate

/-- For the binary clauses with the complement of the output: the other literal
and the place of the clause. -/
def binaries? (arena : Arena) (output : Literal) :
    List (Handle × Nat) → Option (List (Literal × Nat))
  | [] => some []
  | (handle, place) :: rest => do
    let clause ← arena.get? handle
    let others ← binaries? arena output rest
    return match clause.literals with
      | [a, b] => (if a = output.complement then b else a, place) :: others
      | _ => others

/-- Whether all literals of a clause but the output are false when the output is
true by one of the binary clauses. -/
def isDefinition (output : Literal) (binaries : List (Literal × Nat)) (clause : Clause) : Bool :=
  clause.literals.all fun l => l = output || (binaries.lookup l.complement).isSome

/-- The place of the first defining clause. -/
def find? (arena : Arena) (output : Literal) (binaries : List (Literal × Nat)) :
    List Handle → Nat → Option (Option (Nat × Clause))
  | [], _ => some none
  | handle :: rest, place => do
    let clause ← arena.get? handle
    if isDefinition output binaries clause then return some (place, clause)
    find? arena output binaries rest (place + 1)

/-- Move the clauses at ascending places to the front, one after the other. -/
def moveToFront (items : Array Handle) : List Nat → Nat → Array Handle
  | [], _ => items
  | place :: rest, front => moveToFront (items.swapIfInBounds front place) rest (front + 1)

/-- A gate with the given output: the clauses with the output and those with its
complement, the defining ones moved to the front, and the number of binary ones
among them. Without a gate the lists stay as they are. -/
def onOutput? (arena : Arena) (output : Literal) (withOutput withComplement : Array Handle) :
    Option (Array Handle × Array Handle × Option Nat) := do
  let binaries ← binaries? arena output withComplement.toList.zipIdx
  if binaries.isEmpty then return (withOutput, withComplement, none)
  match ← find? arena output binaries withOutput.toList 0 with
  | none => return (withOutput, withComplement, none)
  | some (place, clause) =>
    let inputs := (clause.literals.filter fun l => l != output).filterMap fun l =>
      binaries.lookup l.complement
    let places := sortBy (fun a b => decide (a ≤ b)) inputs
    return (withOutput.swapIfInBounds 0 place, moveToFront withComplement places 0,
      some places.length)

/-- Look for a gate that defines a variable, in either sign. -/
def search? (arena : Arena) (name : Nat) (positive negative : Array Handle) :
    Option GateSides := do
  let output := Literal.ofVar name true
  let (withOutput, withComplement, found) ← onOutput? arena output positive negative
  match found with
  | some binaries => return ⟨withOutput, withComplement, some (1, binaries)⟩
  | none =>
    let (withOutput, withComplement, found) ←
      onOutput? arena output.complement negative positive
    return ⟨withComplement, withOutput, found.map fun binaries => (binaries, 1)⟩

/-- Whether the clauses at two places are to be resolved: without a gate all
pairs, with a gate those of a defining clause and another one. -/
def isSelected (gate : Option (Nat × Nat)) (i j : Nat) : Bool :=
  match gate with
  | none => true
  | some (positive, negative) => (i < positive) != (j < negative)

end Gate

end CnfSimplifier
