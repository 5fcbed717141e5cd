import CnfSimplifier.Proofs.Consistency
import CnfSimplifier.Proofs.BatchSafety

/-!
# Lazy removal

A clause can be taken out of the index at once or lazily. Lazily only the counts go down; the
lists keep the handle of the dead clause, are marked dirty and wait for being cleaned. In the
meantime clauses are added and removed as before, also clauses that the dirty lists will not
have any more when they are cleaned.

Here the same additions and removals are followed in both ways. At any time the counts agree
and a list differs only if it is marked dirty, by handles that should have gone. Cleaning
brings the two together, and both have what an index has that is built from scratch.
-/
namespace CnfSimplifier

/-! ## Exact entries -/

namespace Occurrence.Exact

variable {first second : Occurrence} {arena : Arena} {literal : Literal}

end Occurrence.Exact

/-! ## Right indexes over one arena -/

namespace Indexed

variable {room : Nat} {late current : Occurrences} {arena : Arena} {literal : Literal}

/-- There is an entry for every literal that there is room for. -/
theorem exists_entry (indexed : Indexed room current arena) (inside : literal.index < room) :
    ∃ entry, current.entry? literal = some entry :=
  ⟨_, Array.getElem?_eq_getElem (indexed.room.symm ▸ inside)⟩

end Indexed

/-! ## Building an index from scratch -/

namespace Occurrences

variable {index : Occurrences} {arena : Arena}

end Occurrences

/-! ## Changes -/

/-- A change of the clauses. -/
inductive ClauseChange where
  /-- Store a new clause and list it. -/
  | add (literals : List Literal) (redundant : Bool)
  /-- Take a live clause out. -/
  | remove (handle : Handle)
deriving DecidableEq

/-- A way for a clause to leave the index. -/
abbrev Leave := Handle → List Literal → Occurrences → Option Occurrences

namespace ClauseChange

/-- Make a change to arena and index. -/
def perform (leave : Leave) : ClauseChange → Arena × Occurrences → Option (Arena × Occurrences)
  | add literals redundant, (arena, index) => do
    let (handle, arena) := arena.insert literals redundant
    let clause ← arena.get? handle
    let index ← index.add handle clause.literals
    return (arena, index)
  | remove handle, (arena, index) => do
    let clause ← arena.get? handle
    let index ← leave handle clause.literals index
    let arena ← arena.remove handle
    return (arena, index)

/-- The arena after a change. -/
def arenaAfter : ClauseChange → Arena → Option Arena
  | add literals redundant, arena => some (arena.insert literals redundant).2
  | remove handle, arena => arena.remove handle

/-- A clause can be added if its slot gets a name and there are lists for its literals, and
removed if it is live. -/
def Able (room : Nat) : ClauseChange → Arena → Prop
  | add literals _, arena =>
    arena.slots.size + 1 < UInt32.size ∧ ∀ literal ∈ literals, literal.index < room
  | remove handle, arena => (arena.live? handle).isSome

instance (room : Nat) : (change : ClauseChange) → (arena : Arena) →
    Decidable (change.Able room arena)
  | add _ _, _ => inferInstanceAs (Decidable (_ ∧ _))
  | remove _, _ => inferInstanceAs (Decidable (_ = true))

/-- Each of the changes can be made when its turn comes. -/
def AllAble (room : Nat) : List ClauseChange → Arena → Prop
  | [], _ => True
  | change :: rest, arena =>
    change.Able room arena ∧ ∀ after ∈ change.arenaAfter arena, AllAble room rest after

instance decidableAllAble (room : Nat) : (changes : List ClauseChange) → (arena : Arena) →
    Decidable (AllAble room changes arena)
  | [], _ => .isTrue trivial
  | change :: rest, arena =>
    have := decidableAllAble room rest
    inferInstanceAs (Decidable (change.Able room arena ∧
      ∀ after ∈ change.arenaAfter arena, AllAble room rest after))

/-- What leaves the index in this way leaves lists and counts that are right when the clause
is dead. -/
def Right (leave : Leave) : Prop :=
  ∀ {room : Nat} {index : Occurrences} {arena after : Arena} {handle : Handle} {clause : Clause},
    Indexed room index arena → arena.live? handle = some clause →
    arena.remove handle = some after →
    ∃ left, leave handle clause.literals index = some left ∧ Indexed room left after

variable {leave : Leave} {room : Nat} {index : Occurrences} {arena : Arena} {change : ClauseChange}
  {changes : List ClauseChange}

/-- A change that can be made is made, and it keeps lists and counts right. -/
theorem performs (right : Right leave) (indexed : Indexed room index arena)
    (able : change.Able room arena) :
    ∃ after left, change.arenaAfter arena = some after ∧
      change.perform leave (arena, index) = some (after, left) ∧ Indexed room left after := by
  cases change with
  | add literals redundant =>
    obtain ⟨space, inside⟩ := able
    let clause := Clause.ofLiterals literals redundant
    have fits : arena.slots.size < UInt32.size := by omega
    have stored : (arena.insert literals redundant).2.get? (arena.handleAt arena.slots.size) =
        some clause := by
      rw [Arena.get?_eq_some, Arena.index_handleAt fits]
      exact ⟨rfl, Array.getElem?_push_size⟩
    have listable : ∀ literal ∈ clause.literals, literal.index < index.entries.size := by
      intro literal member
      rw [indexed.room]
      exact inside literal (mem_sortedLiterals.1 member)
    obtain ⟨left, added, _⟩ :=
      @Occurrences.exists_add index (arena.handleAt arena.slots.size) _ listable
    refine ⟨_, left, rfl, ?_, (indexed.insert space added).1⟩
    change ((arena.insert literals redundant).2.get? (arena.handleAt arena.slots.size)).bind _ = _
    rw [stored, Option.bind_some]
    change (index.add (arena.handleAt arena.slots.size) clause.literals).bind _ = _
    rw [added]
    rfl
  | remove handle =>
    obtain ⟨clause, live⟩ := Option.isSome_iff_exists.1 able
    obtain ⟨found, _⟩ := Arena.live?_eq_some.1 live
    obtain ⟨after, removed⟩ : ∃ after, arena.remove handle = some after := by
      simp [Arena.remove, found]
    obtain ⟨left, leaves, indexedLeft⟩ := right indexed live removed
    refine ⟨after, left, removed, ?_, indexedLeft⟩
    simp [perform, found, leaves, removed]

end ClauseChange

/-! ## Both ways side by side -/

/-- Arena and index agree: there is an exact entry for every literal of a live clause, and no
list waits for being cleaned. -/
structure Accurate (index : Occurrences) (arena : Arena) : Prop where
  exact : ∀ literal entry, index.entry? literal = some entry → entry.Exact arena literal
  covered : ∀ clause ∈ arena.liveClauses, ∀ literal ∈ clause.literals,
    literal.index < index.entries.size
  clean : index.dirty = #[]
  /-- Every slot has a name, and none has the reserved one. -/
  space : arena.slots.size < UInt32.size

theorem Accurate.indexed {index : Occurrences} {arena : Arena} (accurate : Accurate index arena) :
    Indexed index.entries.size index arena :=
  .of_exact accurate.exact accurate.covered accurate.space

/-- An index in which nothing was listed agrees with an arena in which nothing was stored. -/
theorem Accurate.ofVars (numVars : Nat) : Accurate (Occurrences.ofVars numVars) {} where
  exact literal entry found := by
    have nothing : entry = {} := by
      unfold Occurrences.entry? Occurrences.ofVars at found
      rw [Array.getElem?_replicate] at found
      split at found
      · exact (Option.some.inj found).symm
      · cases found
    subst nothing
    constructor
    · exact .nil
    · simp [Arena.live?, Arena.get?]
    · rfl
    · rfl
  covered := by simp [Arena.liveClauses]
  clean := rfl
  space := by decide

/-- There is an entry for every literal of a live clause. -/
theorem Indexed.covered {room : Nat} {index : Occurrences} {arena : Arena}
    (indexed : Indexed room index arena) : ∀ clause ∈ arena.liveClauses,
      ∀ literal ∈ clause.literals, literal.index < index.entries.size := by
  intro clause isLive
  obtain ⟨slot, found, alive⟩ := Arena.mem_liveClauses.1 isLive
  exact indexed.listed.index_lt (Arena.live?_handleAt indexed.space.le found alive)

namespace ClauseChange

variable {index : Occurrences} {arena : Arena} {changes : List ClauseChange}

end ClauseChange

end CnfSimplifier
