import CnfSimplifier.Tool
import CnfSimplifier.Resolution

/-!
# Blocked clauses

A clause is blocked on a literal if all its resolvents on that literal are
tautologies. It can be removed with a record that chooses the literal. Redundant
clauses count as partners but are not removed themselves.

The literals are tried from a queue, those with fewer partners first. When a
clause is removed, the complements of its literals have lost a partner and are
tried again.
-/
namespace CnfSimplifier

/-- The literals that are still to be tried. -/
abbrev BlockedQueue := List Literal

namespace BlockedQueue

/-- Put a literal into the queue unless it waits there. -/
def enqueue (literal : Literal) : Work BlockedQueue Unit :=
  Work.modifyOwn fun queue => if queue.contains literal then queue else queue ++ [literal]

/-- Put the complements of the literals of removable variables into the queue. -/
def requeue : List Literal → Work BlockedQueue Unit
  | [] => pure ()
  | literal :: rest => do
    if ← Engine.isRemovable literal.var then enqueue literal.complement
    requeue rest

/-- Remove the clauses of a list that are blocked on a literal. The answer is
`false` if the steps are used up. -/
def removeBlocked (literal : Literal) (partners : List Handle) :
    List Handle → Work BlockedQueue Bool
  | [] => return true
  | handle :: rest => do
    let arena ← Engine.look fun engine => engine.arena
    match arena.live? handle with
    | none => removeBlocked literal partners rest
    | some clause =>
      if clause.isRedundant || !clause.contains literal then removeBlocked literal partners rest
      else if ← Work.spend (clause.size * max partners.length 1) then
        if ← Run.access (Resolution.isBlocked? arena literal.var clause.literals partners) then
          Engine.removeWithRecord handle literal
          Engine.count fun tally => { tally with blocked := tally.blocked + 1 }
          requeue clause.literals
        removeBlocked literal partners rest
      else return false

/-- Try one literal. The answer is `false` if the steps are used up. -/
def tryLiteral (literal : Literal) : Work BlockedQueue Bool := do
  let removable ← Engine.isRemovable literal.var
  if !removable then return true
  else if (← Run.read fun ((_, engine) : Tool BlockedQueue × Engine) =>
      engine.index.count? literal) = 0 then return true
  else
    let listed ← Engine.occurrences literal.complement
    let arena ← Engine.look fun engine => engine.arena
    let partners := listed.filter fun handle => (arena.live? handle).isSome
    removeBlocked literal partners (← Engine.occurrences literal)

/-- Try the literals of the queue until it is empty or the steps are used up. -/
def loop : Nat → Work BlockedQueue Unit
  | 0 => Run.stop .outOfFuel
  | fuel + 1 => do
    match ← Work.own with
    | [] => pure ()
    | literal :: rest =>
      Work.modifyOwn fun _ => rest
      if ← tryLiteral literal then loop fuel else pure ()

/-- The literals of the given variables that may be removed, with the number of
their partners. -/
def removableLiterals? (engine : Engine) : List Nat → Option (List (Literal × Int))
  | [] => some []
  | name :: rest => do
    let removable ← engine.isRemovable? name
    let others ← removableLiterals? engine rest
    if removable then
      let positive := Literal.ofVar name true
      let negative := Literal.ofVar name false
      let partnersOfPositive ← engine.index.count? positive.complement
      let partnersOfNegative ← engine.index.count? negative.complement
      return (positive, partnersOfPositive) :: (negative, partnersOfNegative) :: others
    else return others

/-- Remove blocked clauses until none is left or the steps are used up. A literal
comes back only when a clause with its complement was removed. -/
def run : Work BlockedQueue Unit := do
  Engine.propagateUnits
  let engine ← (get : Run Engine Engine)
  let counted ← Run.access (removableLiterals? engine (List.range' 1 engine.numVars))
  let waiting := (sortBy (fun a b => decide (a.2 ≤ b.2)) counted).map fun (literal, _) => literal
  Work.modifyOwn fun _ => waiting
  loop (waiting.length + engine.liveLiterals + 1)

/-- Run the removal of blocked clauses once, and forget the queue whatever
happened. -/
def process : Work BlockedQueue Status :=
  Work.process Settings.blockedSteps
    (do let result ← run.attempt
        Work.modifyOwn fun _ => []
        match result with
        | .ok () => pure ()
        | .error cause => Run.fail cause)
    fun run before budget after =>
      .blockedRemoved run (after.tally.blocked - before.tally.blocked) budget.used

end BlockedQueue

end CnfSimplifier
