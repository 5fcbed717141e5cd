import CnfSimplifier.Tool
import CnfSimplifier.Least

/-!
# Subsumption

A clause that contains another one is superfluous. A clause that contains another
one except for one literal, whose complement it has, can lose that complement:
the resolvent of the two is shorter than the clause and can take its place.

Clauses wait in a queue. Each one is first searched for hidden tautologies and
hidden literals with the help of the implication graph, then checked against the
clauses that might subsume or strengthen it, and last tried on the clauses that
it might subsume or strengthen. Shortened clauses enter the queue again.
-/
namespace CnfSimplifier

/-- How one clause relates to another one. -/
inductive Subsumption where
  /-- The first clause is part of the second. -/
  | subsumes
  /-- The first clause is part of the second but for a literal, whose complement
  the second clause can lose. -/
  | strengthens (literal : Literal)
  | unrelated
deriving DecidableEq

namespace Subsumption

/-- Scan two ascending clauses side by side, with the literal met so far whose
complement is in the second clause. -/
def scan : List Literal → List Literal → Option Literal → Subsumption
  | [], _, none => .subsumes
  | [], _, some literal => .strengthens literal
  | _ :: _, [], _ => .unrelated
  | l :: first, k :: second, flipped =>
    if k.var < l.var then scan (l :: first) second flipped
    else if l.var < k.var then .unrelated
    else if k = l then scan first second flipped
    else
      match flipped with
      | none => scan first second (some l)
      | some _ => .unrelated

/-- How the first clause relates to the second. -/
def check (first second : List Literal) : Subsumption :=
  if second.length < first.length then .unrelated else scan first second none

end Subsumption

/-- The clauses that wait for subsumption, and the implication graph while it may
be used. -/
structure Subsumer where
  queue : List Handle := []
  graph : Option Implications := none
deriving Inhabited

namespace Subsumer

/-- Begin a run with a step limit and without an implication graph. -/
def start (limit : UInt64) : Work Subsumer Unit := do
  Work.startBudget limit
  Work.modifyOwn fun subsumer => { subsumer with graph := none }

/-- Forget the queue. -/
def reset (subsumer : Subsumer) : Subsumer := { subsumer with queue := [] }

/-- Carry the queue over a compaction. -/
def relocate (relocation : Relocation) (subsumer : Subsumer) : Option Subsumer :=
  (relocation.carry subsumer.queue).map fun queue => { subsumer with queue := queue }

/-- Put a live clause into the queue unless it waits in one already. -/
def enqueue (handle : Handle) : Work Subsumer Unit := do
  match ← Engine.look fun engine => engine.arena.live? handle with
  | none => pure ()
  | some clause =>
    if clause.flags.queued then pure ()
    else do
      Engine.markClause handle fun flags => { flags with queued := true }
      Work.modifyOwn fun subsumer => { subsumer with queue := subsumer.queue ++ [handle] }

/-- The live clauses that are marked as candidates, shorter ones first. -/
def candidates (arena : Arena) : List Handle :=
  let sized := arena.handles.filterMap fun handle =>
    match arena.get? handle with
    | some clause =>
      if clause.flags.subsume || clause.flags.strengthen then some (handle, clause.size) else none
    | none => none
  (sortBy (fun a b => decide (a.2 ≤ b.2)) sized).map Prod.fst

/-- Put all candidates into the queue. -/
def gather : Work Subsumer Unit := do
  let handles ← Engine.look fun engine => candidates engine.arena
  handles.forM enqueue

/-- Note that a clause needs no further look until it changes. -/
def settle (handle : Handle) : Run Engine Unit :=
  Engine.markClause handle fun flags => { flags with subsume := false, strengthen := false }

/-- Try a clause on the given ones, as a clause that subsumes or strengthens. -/
def backwardOn (handle : Handle) (literals : List Literal) : List Handle → Work Subsumer Unit
  | [] => pure ()
  | other :: rest => do
    if other = handle then backwardOn handle literals rest
    else
      match ← Engine.look fun engine => engine.arena.live? other with
      | none => backwardOn handle literals rest
      | some clause =>
        if clause.size < literals.length then backwardOn handle literals rest
        else if ← Work.spend clause.size then
          match Subsumption.check literals clause.literals with
          | .subsumes =>
            if clause.isRedundant then pure () else Engine.makeIrredundant handle
            Engine.removeClause other
            Engine.count fun tally => { tally with subsumed := tally.subsumed + 1 }
            backwardOn handle literals rest
          | .strengthens literal =>
            Engine.strengthen other literal.complement
            enqueue other
            backwardOn handle literals rest
          | .unrelated => backwardOn handle literals rest
        else pure ()

/-- Pair every literal with the number of clauses that have its variable. -/
def variableCounts? (index : Occurrences) : List Literal → Option (List (Literal × Int))
  | [] => some []
  | literal :: rest => do
    let positive ← index.count? literal
    let negative ← index.count? literal.complement
    let others ← variableCounts? index rest
    return (literal, positive + negative) :: others

/-- Use a clause to subsume or strengthen others, among those that share its
rarest variable. -/
def backward (handle : Handle) : Work Subsumer Unit := do
  let clause ← Engine.clause handle
  let counts ← Run.read fun (_, engine) => variableCounts? engine.index clause.literals
  match leastBy Prod.snd counts with
  | none => pure ()
  | some (literal, _) =>
    let same ← Engine.occurrences literal
    let opposite ← Engine.occurrences literal.complement
    backwardOn handle clause.literals (same ++ opposite)

/-- How a look at possible subsumers of a clause ended. -/
inductive Look where
  /-- Nothing was found so far. -/
  | nothing
  /-- The clause is gone, or the steps are used up. -/
  | finished
  /-- The clause became shorter. -/
  | shorter
deriving DecidableEq

/-- Check a clause against the given ones, which might subsume or strengthen it. -/
def forwardAgainst (handle : Handle) (size : Nat) : List Handle → Work Subsumer Look
  | [] => return .nothing
  | other :: rest => do
    if other = handle then forwardAgainst handle size rest
    else
      match ← Engine.look fun engine => engine.arena.live? other with
      | none => forwardAgainst handle size rest
      | some subsumer =>
        if size < subsumer.size then forwardAgainst handle size rest
        else if ← Work.spend subsumer.size then
          let clause ← Engine.clause handle
          if clause.isDead then return .finished
          else
            match Subsumption.check subsumer.literals clause.literals with
            | .subsumes =>
              if clause.isRedundant then pure () else Engine.makeIrredundant other
              Engine.removeClause handle
              Engine.count fun tally => { tally with subsumed := tally.subsumed + 1 }
              return .finished
            | .strengthens literal =>
              Engine.strengthen handle literal.complement
              Engine.markClause handle fun flags =>
                if flags.dead then flags else { flags with subsume := true, strengthen := true }
              return .shorter
            | .unrelated => forwardAgainst handle size rest
        else return .finished

/-- Check a clause against the clauses that have one of the given literals. -/
def forwardThrough (handle : Handle) (size : Nat) : List Literal → Work Subsumer Look
  | [] => return .nothing
  | literal :: rest => do
    match ← forwardAgainst handle size (← Engine.occurrences literal) with
    | .nothing => forwardThrough handle size rest
    | found => return found

/-- Look for clauses that subsume or strengthen a clause, and begin again each
time that it became shorter. -/
def forwardLoop (handle : Handle) : Nat → Work Subsumer Unit
  | 0 => Run.stop .outOfFuel
  | fuel + 1 => do
    let clause ← Engine.clause handle
    if clause.isDead then pure ()
    else
      let sides := clause.literals.flatMap fun literal => [literal, literal.complement]
      match ← forwardThrough handle clause.size sides with
      | .shorter => forwardLoop handle fuel
      | _ => pure ()

/-- Check whether other clauses subsume or strengthen a clause. -/
def forward (handle : Handle) : Work Subsumer Unit := do
  let clause ← Engine.clause handle
  forwardLoop handle (clause.size + 1)

/-- Whether the complement of a literal implies a later one. Then the clause
follows from the binary clauses. -/
def hasHiddenTautology? (graph : Implications) : List Literal → Option Bool
  | [] => some false
  | literal :: rest => do
    if ← anyImplied? literal.complement rest then return true
    hasHiddenTautology? graph rest
where
  /-- Whether a literal implies one of a list. -/
  anyImplied? (source : Literal) : List Literal → Option Bool
    | [] => some false
    | target :: rest => do
      if ← graph.implies? source target then return true
      anyImplied? source rest

/-- The first literal that implies another one of the clause. The clause can do
without it. -/
def hiddenLiteral? (graph : Implications) (literals : List Literal) :
    List Literal → Option (Option Literal)
  | [] => some none
  | literal :: rest => do
    if ← hasHiddenTautology?.anyImplied? graph literal (literals.filter (· != literal)) then
      return some literal
    hiddenLiteral? graph literals rest

/-- Look for hidden tautologies and literals of a clause, and begin again each
time that it became shorter. The answer says whether the clause was removed. -/
def hiddenLoop (graph : Implications) (handle : Handle) : Nat → Work Subsumer Bool
  | 0 => Run.stop .outOfFuel
  | fuel + 1 => do
    let clause ← Engine.clause handle
    if clause.size < 3 then return false
    else if ← Work.spend (clause.size * clause.size) then
      if ← Run.access (hasHiddenTautology? graph clause.literals) then
        Engine.removeClause handle
        Engine.count fun tally => { tally with hiddenTautologies := tally.hiddenTautologies + 1 }
        return true
      else
        match ← Run.access (hiddenLiteral? graph clause.literals clause.literals) with
        | some literal =>
          Engine.strengthen handle literal
          Engine.count fun tally => { tally with hiddenLiterals := tally.hiddenLiterals + 1 }
          hiddenLoop graph handle fuel
        | none => return false
    else return false

/-- Search a clause with the implication graph, if there is one. -/
def hidden (handle : Handle) : Work Subsumer Bool := do
  match (← Work.own).graph with
  | none => return false
  | some graph =>
    let clause ← Engine.clause handle
    hiddenLoop graph handle (clause.size + 1)

/-- Work on one clause of the queue. -/
def simplifyClause (handle : Handle) : Work Subsumer Unit := do
  if ← hidden handle then Engine.propagateUnits
  else do
    forward handle
    if (← Engine.clause handle).isDead then Engine.propagateUnits
    else do
      backward handle
      settle handle
      Engine.propagateUnits

/-- Note that a clause left the queue. -/
def unqueue (handle : Handle) : Run Engine Unit :=
  Engine.markClause handle fun flags => { flags with queued := false }

/-- Work through the queue until it is empty or the steps are used up. -/
def drainLoop : Nat → Work Subsumer Unit
  | 0 => Run.stop .outOfFuel
  | fuel + 1 => do
    match (← Work.own).queue with
    | [] => pure ()
    | handle :: rest =>
      Work.modifyOwn fun subsumer => { subsumer with queue := rest }
      match ← Engine.look fun engine => engine.arena.get? handle with
      | none => drainLoop fuel
      | some clause =>
        unqueue handle
        if clause.isDead then drainLoop fuel
        else if ← Work.spend clause.size then
          let limit ← Engine.look fun engine => engine.settings.subsumptionLength
          if limit < UInt64.ofNat clause.size then
            settle handle
            drainLoop fuel
          else do
            simplifyClause handle
            drainLoop fuel
        else pure ()

/-- Work through the queue. A clause comes back only after it lost a literal.
Clauses for which the steps did not suffice leave the queue and stay marked. -/
def drain : Work Subsumer Unit := do
  let waiting := (← Work.own).queue.length
  let literals ← Engine.look Engine.liveLiterals
  drainLoop (waiting + literals + 1)
  let left := (← Work.own).queue
  left.forM fun handle => (unqueue handle : Work Subsumer Unit)
  Work.modifyOwn reset

/-- Gather and work through candidates until there are none or the steps are used
up. Candidates come up again only after they lost a literal. -/
def exhaust : Nat → Work Subsumer Unit
  | 0 => Run.stop .outOfFuel
  | fuel + 1 => do
    gather
    if (← Work.own).queue.isEmpty then pure ()
    else if (← Work.budget).isExhausted then pure ()
    else do
      drain
      exhaust fuel

/-- Subsume and strengthen until nothing changes or the steps are used up. -/
def run : Work Subsumer Unit := do
  Engine.propagateUnits
  if (← Engine.look fun engine => engine.arena.binary) == 0 then pure ()
  else do
    let graph ← Engine.implications
    Work.modifyOwn fun subsumer => { subsumer with graph := some graph }
  let literals ← Engine.look Engine.liveLiterals
  exhaust (literals + 3)

/-- Run subsumption once. -/
def process : Work Subsumer Status :=
  Work.process Settings.subsumptionSteps
    (do Work.modifyOwn fun subsumer => { subsumer with graph := none }
        run)
    fun run before budget after => .subsumed run
      (after.tally.subsumed - before.tally.subsumed)
      (after.tally.strengthened - before.tally.strengthened) budget.used

end Subsumer

end CnfSimplifier
