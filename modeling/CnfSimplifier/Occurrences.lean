import CnfSimplifier.Arena
import CnfSimplifier.Bag

/-!
# The occurrence index

For every literal, the handles of the clauses that contain it and their number.
A clause can be taken out of the index at once or lazily. Lazily means that the
numbers go down immediately while the lists keep the handle and are marked
dirty; cleaning a dirty list drops the handles of clauses that are dead or lost
the literal, and puts the rest in order.

Operations on a literal outside the index answer `none`.
-/
namespace CnfSimplifier

/-- What the index knows about one literal. -/
structure Occurrence where
  handles : Array Handle := #[]
  count : Int := 0
  dirty : Bool := false
deriving Inhabited

/-- Nothing is listed in the first of some entries: no literal has the code zero. -/
def Unlisted (entries : Array Occurrence) : Prop :=
  ∀ entry, entries[0]? = some entry → entry.handles = #[]

namespace Unlisted

theorem empty : Unlisted #[] := by
  intro entry found
  cases found

theorem replicate (room : Nat) : Unlisted (Array.replicate room {}) := by
  intro entry found
  rw [Array.getElem?_replicate] at found
  split at found
  · exact Option.some.inj found ▸ rfl
  · cases found

/-- A change of the entry of a literal is no change of the first one. -/
theorem modify {entries : Array Occurrence} (unlisted : Unlisted entries) (literal : Literal)
    (change : Occurrence → Occurrence) : Unlisted (entries.modify literal.index change) := by
  intro entry found
  have positive : literal.index ≠ 0 := fun zero => literal.code_ne_zero (UInt32.toNat_inj.1 zero)
  rw [Array.getElem?_modify, if_neg positive] at found
  exact unlisted entry found

theorem push {entries : Array Occurrence} (unlisted : Unlisted entries) :
    Unlisted (entries.push {}) := by
  intro entry found
  rw [Array.getElem?_push] at found
  split at found
  · exact Option.some.inj found ▸ rfl
  · exact unlisted entry found

end Unlisted

/-- The index from literals to clauses. -/
structure Occurrences where
  entries : Array Occurrence := #[]
  /-- The literals with dirty lists, in the order in which they became so. -/
  dirty : Array Literal := #[]
  unlisted : Unlisted entries := by exact .empty

instance : Inhabited Occurrences := ⟨{}⟩

/-- A disagreement between the index and the arena. -/
inductive Violation where
  /-- A live clause is not exactly once in the list of one of its literals. -/
  | occurs (handle : Handle) (clause : Clause) (times : Nat) (literal : Literal)
  /-- A clean list has a handle without a live clause containing the literal. -/
  | leftover (literal : Literal) (handle : Handle)
  /-- A number differs from the length of its clean list. -/
  | miscount (literal : Literal) (count : Int) (length : Nat)

/-- The message of a disagreement. -/
def Violation.message : Violation → String
  | .occurs handle clause times literal =>
    handle.text ++ clause.text ++ " occurs " ++ toString times ++ " times in " ++ literal.text
  | .leftover literal handle => literal.text ++ " holds a stale or dead handle " ++ handle.text
  | .miscount literal count length =>
    literal.text ++ ": count " ++ toString count ++ " != " ++ toString length

namespace Occurrences

/-- The empty index over a number of variables. -/
def ofVars (numVars : Nat) : Occurrences :=
  { entries := Array.replicate (2 * (numVars + 1)) {}, unlisted := .replicate _ }

/-- Make room for one more variable. -/
def addVar (index : Occurrences) : Occurrences :=
  { index with
    entries := (index.entries.push {}).push {}
    unlisted := index.unlisted.push.push }

/-- What is known about a literal. -/
def entry? (index : Occurrences) (literal : Literal) : Option Occurrence :=
  index.entries[literal.index]?

/-- The handles listed for a literal. -/
def list? (index : Occurrences) (literal : Literal) : Option (Array Handle) :=
  (index.entry? literal).map Occurrence.handles

/-- The number of live clauses with a literal. -/
def count? (index : Occurrences) (literal : Literal) : Option Int :=
  (index.entry? literal).map Occurrence.count

/-- The number of live clauses with a variable in either sign. -/
def varCount? (index : Occurrences) (name : Nat) : Option Nat := do
  let positive ← index.count? (Literal.ofVar name true)
  let negative ← index.count? (Literal.ofVar name false)
  return positive.toNat + negative.toNat

/-- Change what is known about a literal. -/
def modify? (index : Occurrences) (literal : Literal) (change : Occurrence → Occurrence) :
    Option Occurrences :=
  if literal.index < index.entries.size then
    some { index with
      entries := index.entries.modify literal.index change
      unlisted := index.unlisted.modify literal change }
  else none

/-- List a clause under each of its literals. -/
def add (index : Occurrences) (handle : Handle) : List Literal → Option Occurrences
  | [] => some index
  | literal :: rest => do
    let index ← index.modify? literal fun entry =>
      { entry with handles := entry.handles.push handle, count := entry.count + 1 }
    index.add handle rest

/-- Take a clause out of the list of one literal. -/
def removeFrom (index : Occurrences) (handle : Handle) (literal : Literal) : Option Occurrences :=
  index.modify? literal fun entry =>
    { entry with handles := Bag.erase entry.handles handle, count := entry.count - 1 }

/-- Take a clause out of the lists of all its literals. -/
def remove (index : Occurrences) (handle : Handle) : List Literal → Option Occurrences
  | [] => some index
  | literal :: rest => do
    let index ← index.removeFrom handle literal
    index.remove handle rest

/-- Mark the list of a literal dirty. -/
def markDirty (index : Occurrences) (literal : Literal) : Option Occurrences := do
  let entry ← index.entry? literal
  if entry.dirty then return index
  let index ← index.modify? literal fun entry => { entry with dirty := true }
  return { index with dirty := index.dirty.push literal }

/-- Take a clause with the given literals out lazily. -/
def removeLazily (index : Occurrences) : List Literal → Option Occurrences
  | [] => some index
  | literal :: rest => do
    let index ← index.modify? literal fun entry => { entry with count := entry.count - 1 }
    let index ← index.markDirty literal
    index.removeLazily rest

/-- Whether some list is dirty. -/
def isDirty (index : Occurrences) : Bool := !index.dirty.isEmpty

/-- A list with only the handles of live clauses that contain the literal, in
order and each once. -/
def cleanEntry (arena : Arena) (literal : Literal) (entry : Occurrence) : Occurrence :=
  let kept := sortBy Handle.le (entry.handles.toList.filter (arena.holds · literal))
  let handles := (dropRepeats kept).toArray
  { handles := handles, count := handles.size, dirty := false }

/-- Cleaning adds nothing to the lists of no literal. -/
theorem unlisted_cleaned {entries : Array Occurrence} (unlisted : Unlisted entries)
    (arena : Arena) (dirty : Array Literal) :
    Unlisted (dirty.foldl (fun entries literal =>
      entries.modify literal.index (cleanEntry arena literal)) entries) := by
  rw [← Array.foldl_toList]
  induction dirty.toList generalizing entries with
  | nil => exact unlisted
  | cons literal rest ih => exact ih (unlisted.modify literal _)

/-- Clean all dirty lists. -/
def clean (index : Occurrences) (arena : Arena) : Occurrences :=
  { entries := index.dirty.foldl (fun entries literal =>
      entries.modify literal.index (cleanEntry arena literal)) index.entries
    dirty := #[]
    unlisted := unlisted_cleaned index.unlisted arena index.dirty }

/-- Forget all clauses. -/
def clear (index : Occurrences) : Occurrences :=
  { entries := Array.replicate index.entries.size {}, dirty := #[], unlisted := .replicate _ }

/-- List every live clause of an arena. -/
def addAll (index : Occurrences) (arena : Arena) : List Handle → Option Occurrences
  | [] => some index
  | handle :: rest => do
    let clause ← arena.get? handle
    let index ← index.add handle clause.literals
    index.addAll arena rest

/-- Start over from the live clauses of an arena. -/
def rebuild (index : Occurrences) (arena : Arena) : Option Occurrences :=
  index.clear.addAll arena arena.handles

/-- Look for a literal of a clause under which the clause is not listed exactly
once. -/
def checkClause (index : Occurrences) (handle : Handle) (clause : Clause) :
    List Literal → Option (Option Violation)
  | [] => some none
  | literal :: rest => do
    let handles ← index.list? literal
    let times := handles.toList.count handle
    if times = 1 then index.checkClause handle clause rest
    else return some (.occurs handle clause times literal)

/-- Look for a clause that is not listed exactly once somewhere. -/
def checkClauses (index : Occurrences) (arena : Arena) : List Handle → Option (Option Violation)
  | [] => some none
  | handle :: rest => do
    let clause ← arena.get? handle
    match ← index.checkClause handle clause clause.literals with
    | some violation => return some violation
    | none => index.checkClauses arena rest

/-- Look for a fault of the list of one literal. -/
def checkEntry (arena : Arena) (literal : Literal) (entry : Occurrence) : Option Violation :=
  if entry.dirty then none
  else
    match entry.handles.toList.find? fun handle => !arena.holds handle literal with
    | some handle => some (.leftover literal handle)
    | none =>
      if entry.count = entry.handles.size then none
      else some (.miscount literal entry.count entry.handles.size)

/-- Look for a disagreement with the arena: first clause by clause, then list by
list. Codes below 2 belong to no variable and are passed over. -/
def check (index : Occurrences) (arena : Arena) : Option (Option Violation) := do
  match ← index.checkClauses arena arena.handles with
  | some violation => return some violation
  | none =>
    return (index.entries.toList.zipIdx.drop 2).findSome? fun (entry, code) =>
      checkEntry arena (Literal.ofNat code) entry

/-- Carry all entries over a compaction. -/
def carryEntries (relocation : Relocation) : List Occurrence → Option (List Occurrence)
  | [] => some []
  | entry :: rest => do
    let handles ← relocation.carryArray entry.handles
    let rest ← carryEntries relocation rest
    return { entry with handles := handles } :: rest

/-- Lists that are carried over stay empty where they were. -/
theorem unlisted_carried {relocation : Relocation} {entries : Array Occurrence}
    {carried : List Occurrence} (unlisted : Unlisted entries)
    (carries : carryEntries relocation entries.toList = some carried) :
    Unlisted carried.toArray := by
  intro entry found
  rw [← Array.getElem?_toList] at found
  cases same : entries.toList with
  | nil =>
    rw [same] at carries
    cases carries
    cases found
  | cons first rest =>
    have nothing : first.handles = #[] :=
      unlisted first (by rw [← Array.getElem?_toList, same]; rfl)
    rw [same, carryEntries, nothing] at carries
    simp only [Relocation.carryArray, Option.bind_eq_bind, Option.bind_eq_some_iff,
      Option.pure_def, Option.some.injEq] at carries
    obtain ⟨handles, isEmpty, others, _, rfl⟩ := carries
    cases found
    exact Option.some.inj isEmpty ▸ rfl

/-- Carry all lists over a compaction; a stale handle in one of them is an error. -/
def relocate (index : Occurrences) (relocation : Relocation) : Option Occurrences :=
  match carries : carryEntries relocation index.entries.toList with
  | none => none
  | some entries =>
    some { index with
      entries := entries.toArray
      unlisted := unlisted_carried index.unlisted carries }

/-- The index is relocated if every entry can be carried over. -/
theorem relocate_eq_some {index after : Occurrences} {relocation : Relocation} :
    index.relocate relocation = some after ↔
      ∃ carried, ∃ carries : carryEntries relocation index.entries.toList = some carried,
        ⟨carried.toArray, index.dirty, unlisted_carried index.unlisted carries⟩ = after := by
  unfold relocate
  split
  next nothing => simp [nothing]
  next entries carries => simp [carries]

end Occurrences

end CnfSimplifier
