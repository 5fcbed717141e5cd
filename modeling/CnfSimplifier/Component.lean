import CnfSimplifier.Implication
import CnfSimplifier.Budget

/-!
# Strongly connected components

Literals that imply each other form a component of the implication graph. The
components are found in one depth-first search. Every literal is numbered when it
is met; it also carries the least number known to be reachable from it among the
literals that are not yet assigned to a component. A literal that reaches nothing
older than itself closes a component: it and everything above it on the stack.

Looking at a successor costs a step, and the search gives up when the steps are
used up.
-/
namespace CnfSimplifier

/-- A search for components. -/
structure ComponentSearch where
  /-- The number of each literal; zero before it is met. -/
  number : Array Nat
  /-- The least number known to be reachable. -/
  low : Array Nat
  /-- Whether a literal was met and belongs to no component yet. -/
  pending : Array Bool
  /-- The literals without a component, the last one met first. -/
  stack : List Literal := []
  /-- The next number. -/
  next : Nat := 1
  /-- The components of at least two literals, in the order of their discovery. -/
  found : Array (List Literal) := #[]
  budget : Budget

namespace ComponentSearch

/-- The search before the first literal, over a number of literal codes. -/
def start (codes : Nat) (budget : Budget) : ComponentSearch where
  number := Array.replicate codes 0
  low := Array.replicate codes 0
  pending := Array.replicate codes false
  budget := budget

/-- Write an entry of a table; outside the table it is a bad access. -/
def write {α : Type} (table : Array α) (literal : Literal) (entry : α) : Option (Array α) :=
  if literal.index < table.size then some (table.setIfInBounds literal.index entry) else none

/-- Number a literal that is met for the first time. -/
def visit (literal : Literal) : Run ComponentSearch Unit :=
  Run.update fun search => do
    let number ← write search.number literal search.next
    let low ← write search.low literal search.next
    let pending ← write search.pending literal true
    return { search with
      number := number
      low := low
      pending := pending
      stack := literal :: search.stack
      next := search.next + 1 }

/-- The number of a literal. -/
def numberOf (literal : Literal) : Run ComponentSearch Nat :=
  Run.read fun search => search.number[literal.index]?

/-- The least number known to be reachable from a literal. -/
def lowOf (literal : Literal) : Run ComponentSearch Nat :=
  Run.read fun search => search.low[literal.index]?

/-- Note that a number is reachable from a literal. -/
def reach (literal : Literal) (number : Nat) : Run ComponentSearch Unit := do
  let known ← lowOf literal
  Run.update fun search => do
    let low ← write search.low literal (min known number)
    return { search with low := low }

/-- The part of a stack down to a literal, and the rest. -/
def splitThrough (literal : Literal) : List Literal → List Literal × List Literal
  | [] => ([], [])
  | top :: rest =>
    if top = literal then ([top], rest)
    else
      let (members, below) := splitThrough literal rest
      (top :: members, below)

/-- Take the component that a literal closes off the stack. -/
def close (literal : Literal) : Run ComponentSearch Unit :=
  Run.update fun search => do
    let (members, stack) := splitThrough literal search.stack
    let pending ← members.foldlM (fun table member => write table member false) search.pending
    return { search with
      stack := stack
      pending := pending
      found := if 1 < members.length then search.found.push members else search.found }

/-- Spend one step. -/
def spend (interrupted : Bool) : Run ComponentSearch Bool :=
  modifyGet fun search =>
    let (goOn, budget) := search.budget.spend interrupted 1
    (goOn, { search with budget := budget })

/-- Go on from a stack of open literals, each with the successors that are still
to be looked at. The answer is `false` if the steps are used up. -/
def walk (graph : Implications) (interrupted : Bool) :
    Nat → List (Literal × List Literal) → Run ComponentSearch Bool
  | 0, _ => Run.stop .outOfFuel
  | _ + 1, [] => return true
  | fuel + 1, (literal, []) :: rest => do
    match rest with
    | (parent, _) :: _ => reach parent (← lowOf literal)
    | [] => pure ()
    if (← lowOf literal) = (← numberOf literal) then close literal
    walk graph interrupted fuel rest
  | fuel + 1, (literal, next :: others) :: rest => do
    if ← spend interrupted then
      let number ← numberOf next
      if number = 0 then
        visit next
        let successors ← Run.access (graph.successors? next)
        walk graph interrupted fuel ((next, successors.toList) :: (literal, others) :: rest)
      else do
        if ← Run.read fun search => search.pending[next.index]? then reach literal number
        walk graph interrupted fuel ((literal, others) :: rest)
    else return false

/-- Search from the given literals, those without successors left out. Every
edge is looked at and every literal left at most once. -/
def searchFrom (graph : Implications) (interrupted : Bool) :
    List Literal → Run ComponentSearch Bool
  | [] => return true
  | literal :: rest => do
    let number ← numberOf literal
    let successors ← Run.access (graph.successors? literal)
    if number ≠ 0 || successors.isEmpty then searchFrom graph interrupted rest
    else do
      visit literal
      let fuel := graph.numEdges + graph.nodes.size + 2
      if ← walk graph interrupted fuel [(literal, successors.toList)] then
        searchFrom graph interrupted rest
      else return false

end ComponentSearch

/-- The components of at least two literals, or `none` if the steps are used up.
The budget is the state. -/
def Implications.components (graph : Implications) (interrupted : Bool) :
    Run Budget (Option (List (List Literal))) := fun budget =>
  let codes := 2 * (graph.numVars + 1)
  match ComponentSearch.searchFrom graph interrupted (Implications.allLiterals graph.numVars)
      (ComponentSearch.start codes budget) with
  | .done true search => .done (some search.found.toList) search.budget
  | .done false search => .done none search.budget
  | .failed cause search => .failed cause search.budget
  | .stuck why => .stuck why

end CnfSimplifier
