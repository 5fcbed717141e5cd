/-!
# Settings

What the simplifier may do and how long. Step limits count literal visits of one
technique in one run. Inprocessing runs get limits scaled by a factor, but never
less than one step.
-/
namespace CnfSimplifier

/-- What is open about a move of one of several workers: which variable of the queue it is
about, and what the others have done by then. -/
structure Move where
  /-- The place of the variable in the queue. -/
  place : Nat := 0
  /-- Whether a variable of its clauses is locked. -/
  contended : Bool := false
  /-- By how much the count of steps is off at each look at it: what others have added, less
  what moves that are put before this one add after the look. Words wrap around. -/
  rush : List UInt64 := []
  /-- The growth that others have claimed and not made yet. -/
  claimed : Nat := 0

/-- The switches and limits of a simplifier. -/
structure Settings where
  /-- Remove subsumed clauses and strengthen clauses by self-subsumption. -/
  subsumption : Bool := true
  /-- Eliminate variables by resolution. -/
  elimination : Bool := true
  /-- Remove blocked clauses. -/
  blockedClauses : Bool := true
  /-- Substitute equivalent literals. -/
  equivalences : Bool := true
  /-- Solve the binary clauses and keep the solution as phases. -/
  twoSat : Bool := true
  /-- Probe for failed literals. -/
  probing : Bool := true
  /-- Number the remaining variables without gaps at the end. -/
  renumbering : Bool := false
  /-- Clauses longer than this are not tried as subsuming ones. -/
  subsumptionLength : UInt64 := 100
  subsumptionSteps : UInt64 := 2000000
  /-- How many clauses an elimination may add on balance. -/
  growth : UInt64 := 0
  /-- How many clauses all eliminations of a run may add together. -/
  totalGrowth : UInt64 := 0xFFFFFFFFFFFFFFFF
  /-- The greatest length of a resolvent; zero for no limit. -/
  resolventLength : UInt64 := 80
  /-- Try variables however often they occur. -/
  unlimitedOccurrences : Bool := false
  /-- Remove the blocked clauses met while trying a variable. -/
  blockedDuringElimination : Bool := true
  /-- Resolve only against the clauses of a gate where one defines the variable. -/
  gates : Bool := true
  eliminationSteps : UInt64 := 8000000
  /-- Number of workers; more than one selects batch elimination. -/
  workers : UInt64 := 1
  /-- How often a contended variable is put off before it is skipped. -/
  postponements : UInt64 := 8
  blockedSteps : UInt64 := 4000000
  equivalenceSteps : UInt64 := 4000000
  twoSatSteps : UInt64 := 4000000
  probingSteps : UInt64 := 2000000
  /-- The factor on step limits while inprocessing. -/
  inprocessingScale : Float := 0.1
  /-- The greatest number of passes over all techniques in one run. -/
  passes : UInt64 := 16
  /-- The seed of the random order in which implications are explored. -/
  seed : UInt64 := 0
  /-- The moves of several workers, for each run of batch elimination. Their timing is no
  choice of a caller; a statement for all settings is one for all schedules. -/
  schedule : Nat → List Move := fun _ => []

namespace Settings

/-- The same settings with all techniques switched off. -/
def bare (settings : Settings) : Settings :=
  { settings with
    subsumption := false
    elimination := false
    blockedClauses := false
    equivalences := false
    twoSat := false
    probing := false
    renumbering := false }

/-- The moves of a run that are not in order. A single worker has none. -/
def moves (settings : Settings) (run : Nat) : List Move :=
  if settings.workers ≤ 1 then [] else settings.schedule run

/-- A step limit scaled by a factor: at least one step, and cut off at the
greatest 64-bit word. A product that is no number counts as one step. -/
def scaledLimit (base : UInt64) (scale : Float) : UInt64 :=
  let scaled := base.toFloat * scale
  if scaled ≥ 1.0 then scaled.toUInt64 else 1

/-- The step limit of a run. -/
def stepLimit (settings : Settings) (base : UInt64) (inprocessing : Bool) : UInt64 :=
  if inprocessing then scaledLimit base settings.inprocessingScale else base

end Settings

end CnfSimplifier
