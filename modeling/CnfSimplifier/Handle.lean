/-!
# Clause handles and their relocation

A handle names a slot of the clause arena together with the epoch of the arena
that issued it. Compaction closes the gaps left by dead clauses and starts a new
epoch. A handle that was not carried over is therefore recognised as stale; it
never silently names another clause.
-/
namespace CnfSimplifier

/-- The name of a stored clause: a slot in an arena of a certain epoch. -/
structure Handle where
  epoch : UInt32
  slot : UInt32
deriving DecidableEq, Inhabited

namespace Handle

/-- Where the arena keeps the clause. -/
def index (handle : Handle) : Nat := handle.slot.toNat

/-- Handles are ordered by epoch first and slot second. -/
def le (a b : Handle) : Bool :=
  a.epoch < b.epoch || (a.epoch == b.epoch && a.slot ≤ b.slot)

/-- The written form of a handle in messages, such as `4C@1`. -/
def text (handle : Handle) : String :=
  toString handle.slot.toNat ++ "C@" ++ toString handle.epoch.toNat

end Handle

/-- What a compaction does to one handle. -/
inductive Fate where
  /-- The clause survived and has a new name. -/
  | moved (handle : Handle)
  /-- The clause was dead and its slot was reclaimed. -/
  | reclaimed
  /-- The handle was issued in another epoch and must not be carried over. -/
  | stale
deriving DecidableEq

/-- The movement of slots made by one compaction. -/
structure Relocation where
  fromEpoch : UInt32
  toEpoch : UInt32
  /-- The new slot of every old slot; `reclaimedSlot` for a reclaimed one. -/
  target : Array UInt32

namespace Relocation

/-- The slot that marks a reclaimed one. No clause is ever moved there. -/
def reclaimedSlot : UInt32 := 4294967295

/-- What becomes of a handle. -/
def fate (relocation : Relocation) (handle : Handle) : Fate :=
  if handle.epoch = relocation.fromEpoch then
    match relocation.target[handle.index]? with
    | some slot => if slot = reclaimedSlot then .reclaimed else .moved ⟨relocation.toEpoch, slot⟩
    | none => .reclaimed
  else .stale

/-- The new name of a clause that survived; any other handle stays as it is. -/
def follow (relocation : Relocation) (handle : Handle) : Handle :=
  match relocation.fate handle with
  | .moved new => new
  | _ => handle

/-- Carry a list of handles over, in order, and drop the reclaimed ones. A stale
handle in the list is an error of its holder, reported by `none`. -/
def carry (relocation : Relocation) : List Handle → Option (List Handle)
  | [] => some []
  | handle :: rest =>
    match relocation.fate handle with
    | .moved new => (relocation.carry rest).map (new :: ·)
    | .reclaimed => relocation.carry rest
    | .stale => none

/-- Carry an array over within itself: the handles from a place on are read one by
one, and those that survive are written behind the ones kept so far. -/
def carryWithin (relocation : Relocation) : Nat → Nat → Nat → Array Handle → Option (Array Handle)
  | 0, _, kept, handles => some (handles.take kept)
  | left + 1, place, kept, handles =>
    match handles[place]? with
    | none => none
    | some handle =>
      match relocation.fate handle with
      | .moved new =>
        carryWithin relocation left (place + 1) (kept + 1) (handles.setIfInBounds kept new)
      | .reclaimed => carryWithin relocation left (place + 1) kept handles
      | .stale => none

/-- Carry an array of handles over. -/
def carryArray (relocation : Relocation) (handles : Array Handle) : Option (Array Handle) :=
  relocation.carryWithin handles.size 0 0 handles

/-- How many clauses survived. -/
def survivors (relocation : Relocation) : Nat :=
  relocation.target.countP (· ≠ reclaimedSlot)

end Relocation

end CnfSimplifier
