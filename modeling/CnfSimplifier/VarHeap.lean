import CnfSimplifier.Outcome
import CnfSimplifier.Occurrences

/-!
# The order of elimination

A binary heap of variables. The variable in front is the one whose rarer literal
occurs least often; of several such variables the one with the least index. Two
arrays hold the variables by place and the places by variable. Both range over
all variables: those in the heap fill the places up to its size, the others wait
behind. Place 0 and variable 0 are not used.

The occurrence counts are kept elsewhere and may change at any time. A variable
whose count changed has to be inserted again to find its new place.
-/
namespace CnfSimplifier

/-- A heap over the variables from 1 on. -/
structure VarHeap where
  /-- The variable at each place. -/
  order : Array Nat := #[]
  /-- The place of each variable. -/
  place : Array Nat := #[]
  /-- How many variables are in the heap. -/
  size : Nat := 0
deriving Inhabited

namespace VarHeap

/-- The empty heap over a number of variables. -/
def ofVars (numVars : Nat) : VarHeap where
  order := Array.range (numVars + 1)
  place := Array.range (numVars + 1)

/-- The number of variables the heap ranges over. -/
def numVars (heap : VarHeap) : Nat := heap.order.size - 1

/-- Let the heap range over at least this many variables. -/
def expand (heap : VarHeap) (numVars : Nat) : VarHeap :=
  let more := (List.range' heap.order.size (numVars + 1 - heap.order.size)).toArray
  { heap with order := heap.order ++ more, place := heap.place ++ more }

/-- Empty the heap and put all variables back in their own places. A heap that
ranges over nothing cannot be emptied. -/
def clear (heap : VarHeap) : Option VarHeap :=
  if heap.place.isEmpty then none
  else some { order := Array.range heap.order.size, place := Array.range heap.place.size, size := 0 }

/-- Whether a variable is in the heap. -/
def contains? (heap : VarHeap) (name : Nat) : Option Bool :=
  (heap.place[name]?).map (· ≤ heap.size)

/-- The number of occurrences of the rarer literal of a variable. -/
def rarity? (index : Occurrences) (name : Nat) : Option Int := do
  let positive := Literal.ofVar name true
  let a ← index.count? positive
  let b ← index.count? positive.complement
  return min a b

/-- Whether one variable comes before another one. -/
def before? (index : Occurrences) (a b : Nat) : Option Bool := do
  let rarityA ← rarity? index a
  let rarityB ← rarity? index b
  return rarityA < rarityB || (rarityA == rarityB && a < b)

/-- Put a variable at a place. -/
def put (heap : VarHeap) (spot : Nat) (name : Nat) : Option VarHeap :=
  if spot < heap.order.size && name < heap.place.size then
    some { heap with
      order := heap.order.setIfInBounds spot name
      place := heap.place.setIfInBounds name spot }
  else none

/-- Let two variables change places. -/
def exchange (heap : VarHeap) (spot other : Nat) : Option VarHeap := do
  let a ← heap.order[spot]?
  let b ← heap.order[other]?
  let heap ← heap.put spot b
  heap.put other a

/-- Move a variable up from a gap at a place until its parent comes before it. -/
def siftUp (index : Occurrences) (name : Nat) : Nat → Nat → Run VarHeap Unit
  | 0, _ => Run.stop .outOfFuel
  | fuel + 1, gap => do
    let parent := gap / 2
    if parent = 0 then Run.update fun heap => heap.put gap name
    else
      let above ← Run.read fun heap => heap.order[parent]?
      if ← Run.access (before? index name above) then
        Run.update fun heap => heap.put gap above
        siftUp index name fuel parent
      else Run.update fun heap => heap.put gap name

/-- Move a variable down from a gap at a place until it comes before its
children. -/
def siftDown (index : Occurrences) (name : Nat) : Nat → Nat → Run VarHeap Unit
  | 0, _ => Run.stop .outOfFuel
  | fuel + 1, gap => do
    let heap ← get
    let left := 2 * gap
    if left ≤ heap.size then
      let onLeft ← Run.access heap.order[left]?
      let (child, below) ←
        if left + 1 ≤ heap.size then do
          let onRight ← Run.access heap.order[left + 1]?
          if ← Run.access (before? index onRight onLeft) then pure (left + 1, onRight)
          else pure (left, onLeft)
        else pure (left, onLeft)
      if ← Run.access (before? index below name) then
        Run.update fun heap => heap.put gap below
        siftDown index name fuel child
      else Run.update fun heap => heap.put gap name
    else Run.update fun heap => heap.put gap name

/-- Move the variable at a place up. -/
def percolateUp (index : Occurrences) (spot : Nat) : Run VarHeap Unit := do
  let name ← Run.read fun heap => heap.order[spot]?
  siftUp index name (spot + 1) spot

/-- Move the variable at a place down. -/
def percolateDown (index : Occurrences) (spot : Nat) : Run VarHeap Unit := do
  let heap ← get
  let name ← Run.access heap.order[spot]?
  siftDown index name (heap.size + 1) spot

/-- Put a variable into the heap, or back in order if it is there. -/
def insert (index : Occurrences) (name : Nat) : Run VarHeap Unit := do
  if ← Run.read fun heap => heap.contains? name then
    percolateUp index (← Run.read fun heap => heap.place[name]?)
    percolateDown index (← Run.read fun heap => heap.place[name]?)
  else do
    let old ← Run.read fun heap => heap.place[name]?
    let last := (← get).size + 1
    Run.update fun heap => heap.exchange old last
    modify fun heap => { heap with size := last }
    percolateUp index last

/-- Take the first variable out. -/
def select (index : Occurrences) : Run VarHeap (Option Nat) := do
  let last ← Run.read fun heap => if heap.place.isEmpty then none else some heap.size
  if last = 0 then return none
  else
    let first ← Run.read fun heap => heap.order[1]?
    Run.update fun heap => heap.exchange last 1
    modify fun heap => { heap with size := last - 1 }
    if 1 < last - 1 then percolateDown index 1
    return some first

end VarHeap

end CnfSimplifier
