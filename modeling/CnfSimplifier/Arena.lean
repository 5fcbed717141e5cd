import CnfSimplifier.Clause
import CnfSimplifier.Handle
import CnfSimplifier.Word

/-!
# The clause arena

Clauses live in slots and are named by handles. A removed clause stays in its
slot, marked dead, until a compaction closes the gaps and starts a new epoch. The
arena also counts its live clauses, the binary and redundant ones among them, and
their literals.

Operations that go through a handle answer `none` when the handle names no slot
of this epoch. The counters follow the operations as they are called; they agree
with the live clauses as long as only live clauses are removed.
-/
namespace CnfSimplifier

/-- The store of all clauses. -/
structure Arena where
  slots : Array Clause := #[]
  epoch : UInt32 := 0
  /-- The number of live clauses. -/
  active : Int := 0
  /-- The number of live redundant clauses. -/
  redundant : Int := 0
  /-- The number of live clauses with two literals. -/
  binary : Int := 0
  /-- The number of literals in live clauses. -/
  literals : Int := 0
  /-- The number of compactions so far. -/
  compactions : Nat := 0
deriving Inhabited

namespace Arena

/-- The clause of a handle. -/
def get? (arena : Arena) (handle : Handle) : Option Clause :=
  if handle.epoch = arena.epoch then arena.slots[handle.index]? else none

/-- The live clause of a handle. -/
def live? (arena : Arena) (handle : Handle) : Option Clause :=
  (arena.get? handle).filter fun clause => !clause.isDead

/-- Whether a handle names a live clause that contains a literal. -/
def holds (arena : Arena) (handle : Handle) (literal : Literal) : Bool :=
  match arena.get? handle with
  | some clause => !clause.isDead && clause.contains literal
  | none => false

/-- The clauses that are not dead, in slot order. -/
def liveClauses (arena : Arena) : List Clause :=
  arena.slots.toList.filter fun clause => !clause.isDead

/-- The handles of the live clauses, in slot order. -/
def handles (arena : Arena) : List Handle :=
  arena.slots.toList.zipIdx.filterMap fun (clause, slot) =>
    if clause.isDead then none else some ⟨arena.epoch, UInt32.ofNat slot⟩

/-- The handle of the clause in a slot, if it is live. -/
def liveInSlot? (arena : Arena) (slot : Nat) : Option Handle :=
  (arena.slots[slot]?).bind fun clause =>
    if clause.isDead then none else some ⟨arena.epoch, UInt32.ofNat slot⟩

/-- Whether no clause is live. -/
def isEmpty (arena : Arena) : Bool := arena.active == 0

/-- The number of dead slots, as a word. -/
def garbage (arena : Arena) : UInt64 := wordOf (arena.slots.size - arena.active)

/-- Store a new clause. -/
def insert (arena : Arena) (literals : List Literal) (redundant : Bool) : Handle × Arena :=
  let clause := Clause.ofLiterals literals redundant
  let handle := ⟨arena.epoch, UInt32.ofNat arena.slots.size⟩
  (handle,
    { arena with
      slots := arena.slots.push clause
      active := arena.active + 1
      literals := arena.literals + clause.size
      binary := arena.binary + if clause.size = 2 then 1 else 0
      redundant := arena.redundant + if redundant then 1 else 0 })

/-- Replace the clause in a slot. -/
def setSlot (arena : Arena) (slot : Nat) (clause : Clause) : Arena :=
  { arena with slots := arena.slots.setIfInBounds slot clause }

/-- Mark a clause dead. -/
def remove (arena : Arena) (handle : Handle) : Option Arena :=
  match arena.get? handle with
  | none => none
  | some clause =>
    some { arena with
      slots := arena.slots.setIfInBounds handle.index
        { clause with flags := { clause.flags with dead := true } }
      active := arena.active - 1
      literals := arena.literals - clause.size
      binary := arena.binary - if clause.size = 2 then 1 else 0
      redundant := arena.redundant - if clause.isRedundant then 1 else 0 }

/-- Take a literal out of a clause, which makes it a candidate for subsumption
again. The answer has the new length; a literal that is not there changes
nothing. -/
def strengthen (arena : Arena) (handle : Handle) (literal : Literal) : Option (Nat × Arena) :=
  match arena.get? handle with
  | none => none
  | some clause =>
    if clause.contains literal then
      let shorter := clause.erase literal
      let shorter :=
        { shorter with flags := { shorter.flags with subsume := true, strengthen := true } }
      some (shorter.size,
        { arena with
          slots := arena.slots.setIfInBounds handle.index shorter
          literals := arena.literals - 1
          binary := arena.binary + if shorter.size = 2 then 1 else 0 })
    else some (clause.size, arena)

/-- Make the clause in the slot of a handle irredundant, whatever the epoch of
the handle. -/
def makeIrredundant (arena : Arena) (handle : Handle) : Option Arena :=
  match arena.slots[handle.index]? with
  | none => none
  | some clause =>
    if clause.isRedundant then
      some { arena with
        slots := arena.slots.setIfInBounds handle.index
          { clause with flags := { clause.flags with redundant := false } }
        redundant := arena.redundant - 1 }
    else some arena

/-- Change the marks of a clause other than those that the arena counts. -/
def mark (arena : Arena) (handle : Handle) (change : ClauseFlags → ClauseFlags) : Option Arena :=
  match arena.get? handle with
  | none => none
  | some clause =>
    some (arena.setSlot handle.index { clause with flags := change clause.flags })

/-- The new slot of every slot, counted up from a first one. -/
def targets : List Clause → UInt32 → List UInt32
  | [], _ => []
  | clause :: rest, next =>
    if clause.isDead then Relocation.reclaimedSlot :: targets rest next
    else next :: targets rest (next + 1)

/-- Close the gaps and start a new epoch. -/
def compact (arena : Arena) : Relocation × Arena :=
  ({ fromEpoch := arena.epoch
     toEpoch := arena.epoch + 1
     target := (targets arena.slots.toList 0).toArray },
   { arena with
     slots := arena.slots.filter fun clause => !clause.isDead
     epoch := arena.epoch + 1
     compactions := arena.compactions + 1 })

/-- The first live clause that a model does not satisfy. Variables outside the
model are unassigned. -/
def firstUnsatisfied (arena : Arena) (model : Array (Option Bool)) : Option Handle :=
  arena.handles.find? fun handle =>
    match arena.get? handle with
    | some clause => !clause.literals.any fun l => l.isTrueUnder (model[l.var]?).join
    | none => true

end Arena

end CnfSimplifier
