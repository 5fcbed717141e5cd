import CnfSimplifier.Trail
import CnfSimplifier.Random

/-!
# The implication graph

A binary clause says that the complement of each of its literals implies the
other one. The graph of these implications is explored depth first in a random
order, and every literal is stamped with the moments at which it was entered and
left. If the interval of `b` lies inside that of `a`, then `b` was entered while
`a` was open, so there is a path from `a` to `b`. The converse does not hold: a
path may exist without the intervals being nested. The stamps therefore answer
"implied" only where it is true, and stay silent on some true cases.
-/
namespace CnfSimplifier

/-- A literal in the graph. -/
structure ImplicationNode where
  /-- The literals that it implies directly, in the order of exploration. -/
  successors : Array Literal := #[]
  /-- When it was entered; zero before that. -/
  start : Nat := 0
  /-- When it was left; zero before that. -/
  stop : Nat := 0
deriving Inhabited

/-- The implications of some binary clauses, indexed by literal. -/
structure Implications where
  nodes : Array ImplicationNode := #[]
  numVars : Nat := 0
  numEdges : Nat := 0
deriving Inhabited

namespace Implications

/-- The graph without edges over a number of variables. -/
def ofVars (numVars : Nat) : Implications :=
  { nodes := Array.replicate (2 * (numVars + 1)) {}, numVars := numVars }

/-- The node of a literal. -/
def node? (graph : Implications) (literal : Literal) : Option ImplicationNode :=
  graph.nodes[literal.index]?

/-- The literals that a literal implies directly. -/
def successors? (graph : Implications) (literal : Literal) : Option (Array Literal) :=
  (graph.node? literal).map ImplicationNode.successors

/-- Change the node of a literal. -/
def modify? (graph : Implications) (literal : Literal)
    (change : ImplicationNode → ImplicationNode) : Option Implications :=
  if literal.index < graph.nodes.size then
    some { graph with nodes := graph.nodes.modify literal.index change }
  else none

/-- Add one implication. -/
def addEdge (graph : Implications) (source target : Literal) : Option Implications := do
  let graph ← graph.modify? source fun node =>
    { node with successors := node.successors.push target }
  return { graph with numEdges := graph.numEdges + 1 }

/-- Add the two implications of each binary clause. -/
def addClauses (graph : Implications) : List (Literal × Literal) → Option Implications
  | [] => some graph
  | (a, b) :: rest => do
    let graph ← graph.addEdge a.complement b
    let graph ← graph.addEdge b.complement a
    graph.addClauses rest

/-- Whether there is an edge. This is exact. -/
def hasEdge? (graph : Implications) (source target : Literal) : Option Bool :=
  (graph.successors? source).map fun successors => successors.contains target

/-- Whether no edge leads to a literal: then its complement has no successor. -/
def isRoot? (graph : Implications) (literal : Literal) : Option Bool :=
  (graph.successors? literal.complement).map Array.isEmpty

/-- The stamps of a literal. -/
def stamps? (graph : Implications) (literal : Literal) : Option (Nat × Nat) :=
  (graph.node? literal).map fun node => (node.start, node.stop)

/-- Whether the interval of the second node lies inside that of the first. -/
def encloses (outer inner : ImplicationNode) : Bool :=
  outer.start < inner.start && inner.stop < outer.stop

/-- Whether the stamps show a path from one literal to another one, directly or
by contraposition. -/
def implies? (graph : Implications) (a b : Literal) : Option Bool := do
  if a = b then return false
  let nodeA ← graph.node? a
  let nodeB ← graph.node? b
  if encloses nodeA nodeB then return true
  let notB ← graph.node? b.complement
  let notA ← graph.node? a.complement
  return encloses notB notA

/-- The literals of the variables from 1 on, the positive one first. -/
def allLiterals (numVars : Nat) : List Literal :=
  (List.range' 1 numVars).flatMap fun v => [Literal.ofVar v true, Literal.ofVar v false]

/-- All literals that the stamps show to follow from one, in order. -/
def consequences? (graph : Implications) (literal : Literal) : Option (List Literal) :=
  (allLiterals graph.numVars).filterM fun other => graph.implies? literal other

/-- A graph that is being explored: the moment of the last stamp and the source
of the random order. -/
structure Exploration where
  graph : Implications
  clock : Nat := 0
  random : Random

namespace Exploration

/-- Enter a literal: stamp it and shuffle its successors, which are the answer. -/
def enter (literal : Literal) : Run Exploration (List Literal) := do
  let successors ← Run.read fun walk => walk.graph.successors? literal
  let walk ← get
  let (order, random) := walk.random.shuffle successors
  let moment := walk.clock + 1
  Run.update fun walk => do
    let graph ← walk.graph.modify? literal fun node =>
      { node with start := moment, successors := order }
    return { graph := graph, clock := moment, random := random }
  return order.toList

/-- Leave a literal: stamp the end of its interval. -/
def leave (literal : Literal) : Run Exploration Unit :=
  Run.update fun walk => do
    let moment := walk.clock + 1
    let graph ← walk.graph.modify? literal fun node => { node with stop := moment }
    return { walk with graph := graph, clock := moment }

/-- Whether a literal was entered already. -/
def wasEntered (literal : Literal) : Run Exploration Bool :=
  Run.read fun walk => (walk.graph.node? literal).map fun node => node.start != 0

/-- Explore depth first. The open literals are on a stack, each with the
successors that are still to be looked at. -/
def walk : Nat → List (Literal × List Literal) → Run Exploration Unit
  | 0, _ => Run.stop .outOfFuel
  | _ + 1, [] => pure ()
  | fuel + 1, (literal, []) :: rest => do
    leave literal
    walk fuel rest
  | fuel + 1, (literal, next :: others) :: rest => do
    if ← wasEntered next then walk fuel ((literal, others) :: rest)
    else do
      let successors ← enter next
      walk fuel ((next, successors) :: (literal, others) :: rest)

/-- Explore everything that can be reached from a literal, unless it was entered
already. Every edge is looked at and every literal left at most once. -/
def exploreFrom (literal : Literal) : Run Exploration Unit := do
  if ← wasEntered literal then pure ()
  else do
    let successors ← enter literal
    let graph := (← get).graph
    walk (graph.numEdges + graph.nodes.size + 2) [(literal, successors)]

end Exploration

/-- The literals of a variable to which no edge leads. -/
def rootsOf? (graph : Implications) (name : Nat) : Option (List Literal) := do
  let positive := Literal.ofVar name true
  let negative := positive.complement
  let negativeIsRoot ← graph.isRoot? negative
  let positiveIsRoot ← graph.isRoot? positive
  return (if negativeIsRoot then [negative] else []) ++ (if positiveIsRoot then [positive] else [])

/-- Stamp all literals: first from the roots, then from whatever is left. -/
def stampAll : Run Exploration Unit := do
  let walk ← get
  let roots ← Run.access ((List.range' 1 walk.graph.numVars).mapM walk.graph.rootsOf?)
  let (order, random) := walk.random.shuffle roots.flatten.toArray
  modify fun walk => { walk with random := random }
  order.toList.forM Exploration.exploreFrom
  let walk ← get
  let (order, random) := walk.random.shuffle (allLiterals walk.graph.numVars).toArray
  modify fun walk => { walk with random := random }
  order.toList.forM Exploration.exploreFrom

/-- The stamped graph of some binary clauses. -/
def build (numVars : Nat) (clauses : List (Literal × Literal)) :
    Run Random Implications := fun random =>
  match (Implications.ofVars numVars).addClauses clauses with
  | none => .stuck .badAccess
  | some graph =>
    match stampAll { graph := graph, random := random } with
    | .done () walk => .done walk.graph walk.random
    | .failed cause walk => .failed cause walk.random
    | .stuck why => .stuck why

/-- Make room for another number of variables, and take all edges away. The nodes that are
kept keep their stamps. -/
def reset (graph : Implications) (numVars : Nat) : Implications :=
  let size := 2 * (numVars + 1)
  let kept := (graph.nodes.take size).map fun node => { node with successors := #[] }
  { nodes := kept ++ Array.replicate (size - kept.size) {}, numVars := numVars }

/-- Forget all stamps. -/
def unstamp (graph : Implications) : Implications :=
  { graph with nodes := graph.nodes.map fun node => { node with start := 0, stop := 0 } }

/-- The stamped graph of some binary clauses, made from a graph that is not needed any more. -/
def rebuild (graph : Implications) (numVars : Nat) (clauses : List (Literal × Literal)) :
    Run Random Implications := fun random =>
  match (graph.reset numVars).addClauses clauses with
  | none => .stuck .badAccess
  | some graph =>
    match stampAll { graph := graph.unstamp, random := random } with
    | .done () walk => .done walk.graph walk.random
    | .failed cause walk => .failed cause walk.random
    | .stuck why => .stuck why

/-- The irredundant live binary clauses whose literals are both free, as pairs. -/
def freeBinaries? (trail : Trail) : List Clause → Option (List (Literal × Literal))
  | [] => some []
  | clause :: rest =>
    match clause.literals with
    | [a, b] =>
      if clause.isDead || clause.isRedundant then freeBinaries? trail rest
      else do
        let valueOfA ← trail.literalValue? a
        let free ←
          if valueOfA.isSome then some false else (trail.literalValue? b).map Option.isNone
        let others ← freeBinaries? trail rest
        return if free then (a, b) :: others else others
    | _ => freeBinaries? trail rest

end Implications

end CnfSimplifier
