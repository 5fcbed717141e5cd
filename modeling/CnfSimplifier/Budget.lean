/-!
# Step budgets

A technique may visit a limited number of literals in one run. A budget counts
the steps, and also remembers how often the technique came back empty-handed: a
run without effect keeps it out for a number of rounds that grows by one each
time.

The counter that is held against the limit is a 64-bit word, and it comes round
when it is full. The number of the steps themselves is kept beside it. Once a
budget was started it also watches the interrupt flag, and a raised flag uses up
whatever was left.
-/
namespace CnfSimplifier

/-- The steps of a run and the penalty for fruitless runs. -/
structure Budget where
  /-- The steps of this run, also those beyond the limit. -/
  spent : Nat := 0
  limit : UInt64 := 0
  /-- How many rounds the technique still has to sit out. -/
  penalty : Nat := 0
  /-- The penalty given last. -/
  lastPenalty : Nat := 0
  /-- Whether the interrupt flag is watched. -/
  watching : Bool := false
deriving DecidableEq, Inhabited

namespace Budget

/-- The counter of the steps. -/
def used (budget : Budget) : UInt64 := UInt64.ofNat budget.spent

/-- Whether the steps have run out. -/
def isExhausted (budget : Budget) : Bool := budget.limit ≤ budget.used

/-- Begin a run with a step limit. -/
def start (budget : Budget) (limit : UInt64) : Budget :=
  { budget with spent := 0, limit := limit, watching := true }

/-- Spend whatever is left. -/
def useUp (budget : Budget) : Budget :=
  if budget.isExhausted then budget
  else { budget with spent := budget.spent + (budget.limit - budget.used).toNat }

/-- Spend steps; the answer says whether the run may go on. -/
def spend (budget : Budget) (interrupted : Bool) (steps : UInt64) : Bool × Budget :=
  let after : Budget := { budget with spent := budget.spent + steps.toNat }
  if budget.watching && interrupted then (false, after.useUp) else (!after.isExhausted, after)

/-- Whether the technique may run in this round; sitting a round out lowers the
penalty. -/
def mayRun (budget : Budget) : Bool × Budget :=
  match budget.penalty with
  | 0 => (true, budget)
  | left + 1 => (false, { budget with penalty := left })

/-- Note a fruitless run: sit out one round more than the last time. -/
def penalise (budget : Budget) : Budget :=
  { budget with lastPenalty := budget.lastPenalty + 1, penalty := budget.lastPenalty + 1 }

/-- Forget all penalties. -/
def forgive (budget : Budget) : Budget := { budget with penalty := 0, lastPenalty := 0 }

end Budget

end CnfSimplifier
