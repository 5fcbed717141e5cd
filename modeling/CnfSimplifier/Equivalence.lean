import CnfSimplifier.Tool
import CnfSimplifier.Component
import CnfSimplifier.Least

/-!
# Equivalent literals

All literals of a component of the implication graph have the same value in every
model. One of them represents the others: a protected one if there is one, else
the least. It takes their place in all clauses, and records give the
other variables their values back. A component with a complementary pair refutes
the formula.

Each component comes with a second one, made of the complements of its members;
one of the two is enough.
-/
namespace CnfSimplifier.Equivalence

/-- Two complementary literals next to each other in an ascending list; the first
of them. -/
def complementaryPair? : List Literal → Option Literal
  | a :: b :: rest => if a.var = b.var then some a else complementaryPair? (b :: rest)
  | _ => none

/-- The literals that give way, each with its representative, in the order of
their choice. -/
structure Substitution where
  /-- The variables whose component, or the one of the complements, was dealt with. -/
  handled : Array Bool
  /-- The representative of each literal, by code. -/
  image : Array (Option Literal)
  targets : List (Literal × Literal) := []

/-- Nothing substituted yet, over a number of variables. -/
def Substitution.ofVars (numVars : Nat) : Substitution where
  handled := Array.replicate (numVars + 1) false
  image := Array.replicate (2 * (numVars + 1)) none

/-- The literal that stands for a literal. -/
def Substitution.apply (substitution : Substitution) (literal : Literal) : Literal :=
  ((substitution.image[literal.index]?).join).getD literal

/-- The first protected literal of a list. -/
def firstFrozen? (engine : Engine) : List Literal → Option (Option Literal)
  | [] => some none
  | literal :: rest => do
    if ← engine.isFrozen? literal.var then return some literal
    firstFrozen? engine rest

/-- Let a representative stand for the members of a component that may go. -/
def assignMembers? (engine : Engine) (representative : Literal) :
    List Literal → Substitution → Option Substitution
  | [], substitution => some substitution
  | literal :: rest, substitution => do
    let substitution :=
      { substitution with handled := substitution.handled.setIfInBounds literal.var true }
    let goes ←
      if literal = representative then some false else engine.isRemovable? literal.var
    assignMembers? engine representative rest <|
      if goes then
        { substitution with
          image := (substitution.image.setIfInBounds literal.index (some representative))
            |>.setIfInBounds literal.complement.index (some representative.complement)
          targets := substitution.targets ++ [(literal, representative)] }
      else substitution

/-- Choose representatives component by component. -/
def chooseAll : List (List Literal) → Substitution → Run Engine Substitution
  | [], substitution => return substitution
  | component :: rest, substitution => do
    let members := sortBy (fun a b => decide (a ≤ b)) component
    match complementaryPair? members with
    | some literal =>
      Engine.assignUnit literal.complement
      Run.fail .inconsistent
    | none =>
      match members with
      | [] => chooseAll rest substitution
      | least :: _ =>
        if ← Run.access substitution.handled[least.var]? then chooseAll rest substitution
        else
          let frozen ← Run.read fun engine => firstFrozen? engine members
          let substitution ← Run.read fun engine =>
            assignMembers? engine (frozen.getD least) members substitution
          chooseAll rest substitution

/-- Pair every literal with the number of clauses that have it. -/
def literalCounts? (index : Occurrences) : List Literal → Option (List (Literal × Int))
  | [] => some []
  | literal :: rest => do
    let count ← index.count? literal
    let others ← literalCounts? index rest
    return (literal, count) :: others

/-- A live clause with exactly the given literals. -/
def duplicate? (engine : Engine) (literals : List Literal) : Option (Option Handle) := do
  let counts ← literalCounts? engine.index literals
  match leastBy Prod.snd counts with
  | none => return none
  | some (literal, _) =>
    let handles ← engine.index.list? literal
    return handles.toList.find? fun handle =>
      match engine.arena.live? handle with
      | some clause => clause.literals == literals
      | none => false

/-- Add the image of each clause, unless it holds anyway or is there already. -/
def addImages (substitution : Substitution) : List Handle → Work Unit Unit
  | [] => pure ()
  | handle :: rest => do
    let clause ← Engine.clause handle
    let literals := sortedLiterals (clause.literals.map substitution.apply)
    let _ ← Work.spend clause.size
    if hasComplements literals then addImages substitution rest
    else
      match ← Run.read fun ((_, engine) : Tool Unit × Engine) => duplicate? engine literals with
      | some twin =>
        let other ← Engine.clause twin
        if !clause.isRedundant && other.isRedundant then Engine.makeIrredundant twin
        addImages substitution rest
      | none =>
        let _ ← Engine.addClause literals clause.isRedundant
        addImages substitution rest

/-- The live clauses with a literal of one of the given variables, in order. -/
def affected : List (Literal × Literal) → Run Engine (List Handle)
  | [] => return []
  | (literal, _) :: rest => do
    let same ← Engine.occurrences literal
    let opposite ← Engine.occurrences literal.complement
    let others ← affected rest
    return same ++ opposite ++ others

/-- Record that a literal has the value of its representative, and let its
variable go. -/
def retire (literal representative : Literal) : Run Engine Unit := do
  Engine.pushRecord literal [literal, representative.complement]
  Engine.pushRecord literal.complement [literal.complement, representative]
  Engine.handle (.substituted literal.var)
  Engine.count fun tally => { tally with substituted := tally.substituted + 1 }

/-- Replace every clause with a substituted variable by its image. All new clauses
are added before the first old one is removed. -/
def substitute (substitution : Substitution) : Work Unit Unit := do
  let listed ← affected substitution.targets
  let arena ← Engine.look fun engine => engine.arena
  let live := listed.filter fun handle => (arena.live? handle).isSome
  let handles := dropRepeats (sortBy Handle.le live)
  addImages substitution handles
  handles.forM fun handle => (Engine.removeIfLive handle : Work Unit Unit)
  substitution.targets.forM fun (literal, representative) =>
    (retire literal representative : Work Unit Unit)

/-- Find the components within the budget of the tool. -/
def findComponents (graph : Implications) : Work Unit (Option (List (List Literal))) :=
  fun (tool, engine) =>
    match graph.components engine.interrupted tool.budget with
    | .done found budget => .done found ({ tool with budget := budget }, engine)
    | .failed cause budget => .failed cause ({ tool with budget := budget }, engine)
    | .stuck why => .stuck why

/-- Substitute all equivalent literals. -/
def run : Work Unit Unit := do
  Engine.propagateUnits
  let graph ← Engine.implications
  if graph.numEdges = 0 then pure ()
  else
    match ← findComponents graph with
    | none => pure ()
    | some components =>
      let numVars ← Engine.look Engine.numVars
      let substitution ← chooseAll components (Substitution.ofVars numVars)
      if substitution.targets.isEmpty then pure ()
      else do
        substitute substitution
        Engine.propagateUnits

/-- Run the substitution of equivalent literals once. -/
def process : Work Unit Status :=
  Work.process Settings.equivalenceSteps run fun run before budget after =>
    .substituted run (after.tally.substituted - before.tally.substituted) budget.used

end CnfSimplifier.Equivalence
