import CnfSimplifier.Tool

/-!
# Probing

A literal is assumed and propagated. If a clause becomes false, the literal has
failed and its complement is a fact. If both literals of a variable imply the
same literal, that literal is a fact as well. The variables with a literal that
nothing implies come first, then the other ones in binary clauses.
-/
namespace CnfSimplifier.Probing

/-- The literals that were assigned at the root by propagation, made known to the
proof and the counters. -/
def announce : List Literal → Run Engine Unit
  | [] => pure ()
  | literal :: rest => do
    Engine.prove (.added [literal])
    Engine.count fun tally => { tally with units := tally.units + 1 }
    Engine.handle (.asserted literal.var)
    announce rest

/-- Bring the root up to date before a probe. -/
def settleRoot : Run Engine Unit := do
  Engine.propagateUnits
  let before ← Engine.look fun engine => engine.trail.literals.size
  Engine.onTrail Trail.propagateAtRoot
  let new ← Engine.look fun engine => engine.trail.literals.toList.drop before
  if new.isEmpty then pure ()
  else do
    announce new
    Engine.propagateUnits

/-- Assume a literal and propagate it. The answer is what it implies, or `none` if
it failed; then its complement was assigned. -/
def probe (literal : Literal) : Work Unit (Option (List Literal)) := do
  settleRoot
  let start ← Engine.look fun engine => engine.trail.literals.size
  Engine.updateTrail fun trail => trail.openLevel literal
  let conflict ← Engine.onTrail Trail.propagate
  let implied ← Engine.look fun engine => engine.trail.literals.toList.drop (start + 1)
  let _ ← Work.spend (implied.length + 1)
  Engine.cancelToRoot
  if conflict.isSome then
    Engine.count fun tally => { tally with failedLiterals := tally.failedLiterals + 1 }
    Engine.assignUnit literal.complement
    Engine.propagateUnits
    return none
  else return some implied

/-- Assign the literals that both literals of a variable imply. The proof gets
the two binary clauses from which each follows, for as long as it needs them. -/
def assignNecessary (positive : Literal) : List Literal → Run Engine Unit
  | [] => pure ()
  | literal :: rest => do
    if (← Engine.literalValue literal).isNone then
      Engine.prove (.added [positive.complement, literal])
      Engine.prove (.added [positive, literal])
      Engine.assignUnit literal
      Engine.prove (.removed [positive.complement, literal])
      Engine.prove (.removed [positive, literal])
      Engine.count fun tally => { tally with necessary := tally.necessary + 1 }
    assignNecessary positive rest

/-- Probe both literals of a variable. -/
def probeVar (name : Nat) : Work Unit Unit := do
  let positive := Literal.ofVar name true
  match ← probe positive with
  | none => pure ()
  | some fromPositive =>
    match ← probe positive.complement with
    | none => pure ()
    | some fromNegative =>
      assignNecessary positive (fromNegative.filter fun literal => fromPositive.contains literal)
      Engine.propagateUnits

/-- The variables in binary clauses by whether a literal of theirs is implied by
nothing. -/
def classify? (graph : Implications) : List Nat → Option (List Nat × List Nat)
  | [] => some ([], [])
  | name :: rest => do
    let positive := Literal.ofVar name true
    let forward ← graph.successors? positive
    let backward ← graph.successors? positive.complement
    let (roots, others) ← classify? graph rest
    if forward.isEmpty && backward.isEmpty then return (roots, others)
    let isRoot ← graph.isRoot? positive
    let isRoot := isRoot || (← graph.isRoot? positive.complement)
    return if isRoot then (name :: roots, others) else (roots, name :: others)

/-- The variables to probe, in order. -/
def order? (graph : Implications) (numVars : Nat) : Option (List Nat) :=
  (classify? graph (List.range' 1 numVars)).map fun (roots, others) => roots ++ others

/-- Probe the open variables among the given ones until the steps are used up. -/
def probeAll : List Nat → Work Unit Unit
  | [] => pure ()
  | name :: rest => do
    if ← Work.spend 1 then
      let value ← Run.read fun ((_, engine) : Tool Unit × Engine) => engine.trail.value? name
      if value.isNone then probeVar name
      probeAll rest
    else pure ()

/-- Probe the variables in binary clauses. -/
def run : Work Unit Unit := do
  Engine.cancelToRoot
  Engine.propagateUnits
  let graph ← Engine.implications
  let numVars ← Engine.look Engine.numVars
  probeAll (← Run.access (order? graph numVars))

/-- Run probing once, and leave the engine at the root whatever happened. -/
def process : Work Unit Status :=
  Work.process Settings.probingSteps
    (do let result ← run.attempt
        Engine.cancelToRoot
        match result with
        | .ok () => pure ()
        | .error cause => Run.fail cause)
    fun run before _ after => .probed run
      (after.tally.failedLiterals - before.tally.failedLiterals)
      (after.tally.necessary - before.tally.necessary)

end CnfSimplifier.Probing
