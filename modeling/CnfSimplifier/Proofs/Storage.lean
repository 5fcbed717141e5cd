import CnfSimplifier.Literal.Lemmas
import CnfSimplifier.Occurrences
import Mathlib.Data.List.Perm.Basic
import Mathlib.Data.Multiset.AddSub
import Mathlib.Algebra.Order.Group.Multiset
import Mathlib.Algebra.BigOperators.Group.List.Basic

/-!
# Clauses in slots and lists of handles

The contents of an arena are the literals of its live clauses, counted with their
copies. Every operation of the arena is described by what it does to one slot, and
by what that means for the contents.

The index lists the clauses of each literal. Its lists are right if each holds
every live clause with the literal, no handle twice, and no live clause without
the literal. Handles of dead clauses may linger; lazy removal leaves them there
and cleaning drops them.
-/
namespace CnfSimplifier

namespace Bag

/-- Exchanging an item with the last one and dropping the end takes the item out. -/
theorem swapPop_perm {α : Type} {items : Array α} {place : Nat} {item : α}
    (here : items[place]? = some item) :
    (item :: (items.swapIfInBounds place (items.size - 1)).pop.toList).Perm items.toList := by
  obtain ⟨inside, itemHere⟩ := Array.getElem?_eq_some_iff.1 here
  have last : items.size - 1 < items.size := by omega
  have exchanged : items.swapIfInBounds place (items.size - 1) =
      items.swap place (items.size - 1) inside last := by
    unfold Array.swapIfInBounds
    rw [dif_pos inside, dif_pos last]
  have nonempty : (items.swap place (items.size - 1) inside last).size ≠ 0 := by
    rw [Array.size_swap]
    omega
  obtain ⟨front, top, split⟩ := Array.eq_push_of_size_ne_zero nonempty
  -- The item is now at the end, so it is the one that goes.
  have topItem : top = item := by
    have atEnd : (items.swap place (items.size - 1) inside last)[items.size - 1]? =
        some item := by
      rw [Array.getElem?_eq_getElem (by rw [Array.size_swap]; exact last),
        Array.getElem_swap_right, itemHere]
    have size : items.size - 1 = front.size := by
      have := congrArg Array.size split
      simp only [Array.size_swap, Array.size_push] at this
      omega
    rw [split, size, Array.getElem?_push_size] at atEnd
    exact Option.some.inj atEnd
  have shuffled : (items.swap place (items.size - 1) inside last).toList.Perm items.toList :=
    (Array.swap_perm inside last).toList
  rw [exchanged, split, Array.pop_push]
  rw [split, Array.toList_push, topItem] at shuffled
  exact (List.perm_append_singleton item front.toList).symm.trans shuffled

/-- Taking an item out of a bag takes one copy out. -/
theorem erase_perm {α : Type} [DecidableEq α] (items : Array α) (item : α) :
    (erase items item).toList.Perm (items.toList.erase item) := by
  unfold erase
  split
  next place found =>
    obtain ⟨inside, here, _⟩ := Array.findIdx?_eq_some_iff_getElem.1 found
    have itemHere : items[place]? = some item := by
      rw [Array.getElem?_eq_getElem inside, eq_of_beq here]
    exact (List.cons_perm_iff_perm_erase.1 (swapPop_perm itemHere)).2
  next absent =>
    have missing : item ∉ items.toList := by
      intro member
      have found := Array.findIdx?_eq_none_iff.1 absent item (Array.mem_toList_iff.1 member)
      exact absurd found (by simp)
    rw [List.erase_of_not_mem missing]

end Bag

/-! ## The contents of an arena -/

/-- What a slot adds to the contents: the clause if it is live. -/
def Clause.content (clause : Clause) : Multiset (List Literal) :=
  if clause.isDead then 0 else {clause.literals}

theorem Clause.content_of_live {clause : Clause} (live : clause.isDead = false) :
    clause.content = {clause.literals} := by
  simp [content, live]

theorem Clause.content_of_dead {clause : Clause} (dead : clause.isDead = true) :
    clause.content = 0 := by
  simp [content, dead]

namespace Arena

variable {arena after : Arena} {handle : Handle} {clause : Clause} {slot : Nat}

/-- The literals of the live clauses. -/
def contents (arena : Arena) : Multiset (List Literal) :=
  (arena.slots.toList.map Clause.content).sum

/-- No live clause is redundant. -/
def Irredundant (arena : Arena) : Prop :=
  ∀ (slot : Nat) (clause : Clause), arena.slots[slot]? = some clause → clause.isDead = false →
    clause.isRedundant = false

/-- The handle of a slot. -/
def handleAt (arena : Arena) (slot : Nat) : Handle := ⟨arena.epoch, UInt32.ofNat slot⟩

theorem index_handleAt (small : slot < UInt32.size) : (arena.handleAt slot).index = slot :=
  UInt32.toNat_ofNat_of_lt small

/-- A handle of the current epoch is the one of its slot. -/
theorem handleAt_index (current : handle.epoch = arena.epoch) :
    arena.handleAt handle.index = handle := by
  cases handle
  simp only [handleAt, Handle.index, UInt32.ofNat_toNat]
  rw [← current]

theorem get?_eq_some : arena.get? handle = some clause ↔
    handle.epoch = arena.epoch ∧ arena.slots[handle.index]? = some clause := by
  unfold get?
  split
  next current => simp [current]
  next stale => simp [stale]

theorem live?_eq_some : arena.live? handle = some clause ↔
    arena.get? handle = some clause ∧ clause.isDead = false := by
  simp [live?, Option.filter_eq_some_iff]

theorem live?_of_alive (found : arena.get? handle = some clause) (alive : ¬ clause.isDead = true) :
    arena.live? handle = some clause := live?_eq_some.2 ⟨found, Bool.eq_false_iff.2 alive⟩

/-- The clause of a slot is found under the handle of the slot. -/
theorem live?_handleAt (space : arena.slots.size ≤ UInt32.size)
    (found : arena.slots[slot]? = some clause) (live : clause.isDead = false) :
    arena.live? (arena.handleAt slot) = some clause := by
  have inside : slot < arena.slots.size := (Array.getElem?_eq_some_iff.1 found).1
  rw [live?_eq_some, get?_eq_some, index_handleAt (by omega)]
  exact ⟨⟨rfl, found⟩, live⟩

/-- The arena says whether a live clause has a literal. -/
theorem holds_iff {literal : Literal} : arena.holds handle literal = true ↔
    ∃ clause, arena.live? handle = some clause ∧ literal ∈ clause.literals := by
  unfold holds
  split
  next clause found =>
    simp only [Bool.and_eq_true, Bool.not_eq_true', live?_eq_some, found, Option.some.injEq,
      Clause.contains, List.contains_iff_mem]
    constructor
    · rintro ⟨live, member⟩
      exact ⟨clause, ⟨rfl, live⟩, member⟩
    · rintro ⟨_, ⟨rfl, live⟩, member⟩
      exact ⟨live, member⟩
  next missing => simp [live?_eq_some, missing]

/-- Only the clause in a slot decides what the slot adds. -/
theorem sum_set (slots : List Clause) (slot : Nat) (old new : Clause)
    (found : slots[slot]? = some old) :
    ((slots.set slot new).map Clause.content).sum + old.content =
      (slots.map Clause.content).sum + new.content := by
  induction slots generalizing slot with
  | nil => simp at found
  | cons first rest ih =>
    cases slot with
    | zero =>
      simp only [List.getElem?_cons_zero, Option.some.injEq] at found
      subst found
      simp only [List.set_cons_zero, List.map_cons, List.sum_cons]
      rw [add_right_comm, add_comm new.content, add_right_comm]
    | succ slot =>
      simp only [List.getElem?_cons_succ] at found
      simp only [List.set_cons_succ, List.map_cons, List.sum_cons]
      rw [add_assoc, ih slot found, add_assoc]

/-- A change of one slot exchanges what the slot adds. -/
theorem contents_setSlot {old new : Clause} (found : arena.slots[slot]? = some old)
    (changed : after.slots = arena.slots.setIfInBounds slot new) :
    after.contents + old.content = arena.contents + new.content := by
  unfold contents
  rw [changed, Array.toList_setIfInBounds]
  exact sum_set _ slot old new (by rw [Array.getElem?_toList, found])

/-- The contents are the literals of the live clauses. -/
theorem mem_contents {literals : List Literal} : literals ∈ arena.contents ↔
    ∃ (slot : Nat) (clause : Clause), arena.slots[slot]? = some clause ∧ clause.isDead = false ∧
      clause.literals = literals := by
  have inSum : ∀ slots : List Clause, literals ∈ (slots.map Clause.content).sum ↔
      ∃ clause ∈ slots, clause.isDead = false ∧ clause.literals = literals := by
    intro slots
    induction slots with
    | nil => simp
    | cons first rest ih =>
      rw [List.map_cons, List.sum_cons, Multiset.mem_add, ih]
      cases dead : first.isDead with
      | true => simp [Clause.content_of_dead dead, dead]
      | false =>
        simp only [Clause.content_of_live dead, Multiset.mem_singleton, List.mem_cons,
          exists_eq_or_imp, dead, true_and, eq_comm (a := literals)]
  unfold contents
  rw [inSum]
  constructor
  · rintro ⟨clause, member, live, same⟩
    obtain ⟨slot, found⟩ := List.mem_iff_getElem?.1 member
    exact ⟨slot, clause, by rw [← Array.getElem?_toList, found], live, same⟩
  · rintro ⟨slot, clause, found, live, same⟩
    rw [← Array.getElem?_toList] at found
    exact ⟨clause, List.mem_of_getElem? found, live, same⟩

/-- The contents are the literals of the live clauses. -/
theorem contents_eq_liveClauses (arena : Arena) :
    arena.contents = (arena.liveClauses.map Clause.literals : Multiset (List Literal)) := by
  unfold contents liveClauses
  induction arena.slots.toList with
  | nil => rfl
  | cons first rest ih =>
    rw [List.map_cons, List.sum_cons, ih]
    cases dead : first.isDead with
    | true => simp [Clause.content_of_dead dead, dead]
    | false => simp [Clause.content_of_live dead, dead, Multiset.singleton_add]

theorem contents_of_live (live : arena.live? handle = some clause) :
    clause.literals ∈ arena.contents := by
  obtain ⟨found, alive⟩ := live?_eq_some.1 live
  exact mem_contents.2 ⟨handle.index, clause, (get?_eq_some.1 found).2, alive, rfl⟩

/-! ## Operations on slots -/

/-- What is said of the clause in a slot after the slot was replaced. -/
theorem slot_of_set {old new other : Clause} {place : Nat}
    (inside : arena.slots[slot]? = some old)
    (found : (arena.slots.setIfInBounds slot new)[place]? = some other) :
    (place = slot ∧ other = new) ∨ (place ≠ slot ∧ arena.slots[place]? = some other) := by
  rw [Array.getElem?_setIfInBounds] at found
  split at found
  next same =>
    have bound : slot < arena.slots.size := (Array.getElem?_eq_some_iff.1 inside).1
    rw [if_pos bound] at found
    exact .inl ⟨same.symm, (Option.some.inj found).symm⟩
  next different => exact .inr ⟨fun same => different same.symm, found⟩

/-- A change of one slot leaves the clauses of all other handles. -/
theorem get?_of_slots {new : Clause} {other : Handle} (found : arena.get? handle = some clause)
    (slots : after.slots = arena.slots.setIfInBounds handle.index new)
    (epoch : after.epoch = arena.epoch) (different : other ≠ handle) :
    after.get? other = arena.get? other := by
  obtain ⟨current, inSlot⟩ := get?_eq_some.1 found
  unfold get?
  rw [epoch, slots]
  split
  next currentOther =>
    rw [Array.getElem?_setIfInBounds_ne]
    intro same
    apply different
    rw [← handleAt_index currentOther, ← same, handleAt_index current]
  next => rfl

/-- The replaced clause is found. -/
theorem get?_self_of_slots {new : Clause} (found : arena.get? handle = some clause)
    (slots : after.slots = arena.slots.setIfInBounds handle.index new)
    (epoch : after.epoch = arena.epoch) : after.get? handle = some new := by
  obtain ⟨current, inSlot⟩ := get?_eq_some.1 found
  have inside : handle.index < arena.slots.size := (Array.getElem?_eq_some_iff.1 inSlot).1
  refine get?_eq_some.2 ⟨current.trans epoch.symm, ?_⟩
  rw [slots, Array.getElem?_setIfInBounds_self_of_lt inside]

/-- A removed clause is marked dead in its slot. -/
theorem slots_remove (found : arena.get? handle = some clause)
    (removed : arena.remove handle = some after) :
    after.slots = arena.slots.setIfInBounds handle.index
        { clause with flags := { clause.flags with dead := true } } ∧
      after.epoch = arena.epoch ∧ after.active = arena.active - 1 := by
  unfold remove at removed
  rw [found] at removed
  simp only [Option.some.injEq] at removed
  subst removed
  exact ⟨rfl, rfl, rfl⟩

/-- A strengthened clause loses one literal in its slot. -/
theorem slots_strengthen {literal : Literal} {length : Nat}
    (found : arena.get? handle = some clause) (inside : literal ∈ clause.literals)
    (changed : arena.strengthen handle literal = some (length, after)) :
    ∃ shorter : Clause, shorter.literals = clause.literals.erase literal ∧
      shorter.isDead = clause.isDead ∧ shorter.isRedundant = clause.isRedundant ∧
      after.slots = arena.slots.setIfInBounds handle.index shorter ∧
      after.epoch = arena.epoch ∧ after.active = arena.active := by
  unfold strengthen at changed
  have contained : clause.contains literal = true := by
    simpa [Clause.contains] using inside
  rw [found] at changed
  simp only [contained, if_true, Option.some.injEq, Prod.mk.injEq] at changed
  obtain ⟨_, rfl⟩ := changed
  refine ⟨{ clause.erase literal with
    flags := { clause.flags with subsume := true, strengthen := true } }, rfl, rfl, rfl, ?_⟩
  exact ⟨rfl, rfl, rfl⟩

/-- Two arenas hold the same clauses in the same slots, but for marks. -/
structure SameClauses (arena after : Arena) : Prop where
  epoch : after.epoch = arena.epoch
  active : after.active = arena.active
  size : after.slots.size = arena.slots.size
  slots : ∀ (slot : Nat) (clause : Clause), after.slots[slot]? = some clause →
    ∃ old, arena.slots[slot]? = some old ∧ clause.literals = old.literals ∧
      clause.isDead = old.isDead ∧ (old.isRedundant = false → clause.isRedundant = false)

theorem SameClauses.refl (arena : Arena) : SameClauses arena arena :=
  ⟨rfl, rfl, rfl, fun _ clause found => ⟨clause, found, rfl, rfl, id⟩⟩

/-- A clause that gets other marks stays where it is. -/
theorem SameClauses.of_set {old new : Clause} (found : arena.slots[slot]? = some old)
    (literals : new.literals = old.literals) (dead : new.isDead = old.isDead)
    (redundant : old.isRedundant = false → new.isRedundant = false)
    (slots : after.slots = arena.slots.setIfInBounds slot new)
    (epoch : after.epoch = arena.epoch) (active : after.active = arena.active) :
    SameClauses arena after := by
  refine ⟨epoch, active, by rw [slots, Array.size_setIfInBounds], ?_⟩
  intro place clause foundAfter
  rw [slots] at foundAfter
  rcases slot_of_set found foundAfter with ⟨rfl, rfl⟩ | ⟨_, unchanged⟩
  · exact ⟨old, found, literals, dead, redundant⟩
  · exact ⟨clause, unchanged, rfl, rfl, id⟩

/-- Other marks that leave a clause alive and do not make it redundant. -/
theorem sameClauses_mark {change : ClauseFlags → ClauseFlags}
    (dead : ∀ flags, (change flags).dead = flags.dead)
    (redundant : ∀ flags, (change flags).redundant = flags.redundant)
    (marked : arena.mark handle change = some after) : SameClauses arena after := by
  unfold mark at marked
  split at marked
  · cases marked
  next clause found =>
    simp only [Option.some.injEq] at marked
    subst marked
    let new := { clause with flags := change clause.flags }
    have stays : clause.isRedundant = false → new.isRedundant = false :=
      fun old => (redundant clause.flags).trans old
    exact .of_set (get?_eq_some.1 found).2 (rfl : new.literals = _) (dead clause.flags) stays
      rfl rfl rfl

/-- Marks other than the one for it leave a clause redundant or not. -/
theorem isRedundant_of_mark {change : ClauseFlags → ClauseFlags} {other : Handle} {copy : Clause}
    (redundant : ∀ flags, (change flags).redundant = flags.redundant)
    (marked : arena.mark handle change = some after) (found : arena.get? other = some clause)
    (again : after.get? other = some copy) : copy.isRedundant = clause.isRedundant := by
  unfold mark at marked
  split at marked
  · cases marked
  next own lookedUp =>
    simp only [Option.some.injEq] at marked
    subst marked
    rw [get?_eq_some] at found again lookedUp
    rcases slot_of_set lookedUp.2 again.2 with ⟨same, rfl⟩ | ⟨_, unchanged⟩
    · rw [same, lookedUp.2, Option.some.injEq] at found
      rw [← found.2]
      exact redundant own.flags
    · rw [found.2, Option.some.injEq] at unchanged
      rw [unchanged]

/-- Taking off a redundant mark keeps the clauses. -/
theorem sameClauses_makeIrredundant (changed : arena.makeIrredundant handle = some after) :
    SameClauses arena after := by
  unfold makeIrredundant at changed
  split at changed
  · cases changed
  next clause found =>
    split at changed
    · simp only [Option.some.injEq] at changed
      subst changed
      let new := { clause with flags := { clause.flags with redundant := false } }
      exact .of_set found (rfl : new.literals = _) rfl (fun _ => rfl) rfl rfl rfl
    · simp only [Option.some.injEq] at changed
      subst changed
      exact .refl arena

/-- A clause that is made irredundant is so afterwards. -/
theorem live?_makeIrredundant (live : arena.live? handle = some clause)
    (changed : arena.makeIrredundant handle = some after) : ∃ copy,
      after.live? handle = some copy ∧ copy.literals = clause.literals ∧
      copy.isRedundant = false := by
  obtain ⟨found, alive⟩ := live?_eq_some.1 live
  obtain ⟨_, inSlot⟩ := get?_eq_some.1 found
  unfold makeIrredundant at changed
  rw [inSlot] at changed
  dsimp only at changed
  split at changed
  · simp only [Option.some.injEq] at changed
    subst changed
    let new := { clause with flags := { clause.flags with redundant := false } }
    exact ⟨new, live?_eq_some.2 ⟨get?_self_of_slots found rfl rfl, alive⟩, rfl, rfl⟩
  next plain =>
    simp only [Option.some.injEq] at changed
    subst changed
    refine ⟨clause, live, rfl, ?_⟩
    simpa [alive] using plain

/-- The old clause of a slot is found again. -/
theorem SameClauses.slot_back (same : SameClauses arena after) {old : Clause}
    (found : arena.slots[slot]? = some old) : ∃ clause, after.slots[slot]? = some clause ∧
      clause.literals = old.literals ∧ clause.isDead = old.isDead ∧
      (old.isRedundant = false → clause.isRedundant = false) := by
  have inside : slot < after.slots.size := by
    rw [same.size]
    exact (Array.getElem?_eq_some_iff.1 found).1
  have foundAfter : after.slots[slot]? = some after.slots[slot] :=
    Array.getElem?_eq_getElem inside
  obtain ⟨old', found', literals, dead, redundant⟩ := same.slots slot _ foundAfter
  rw [found, Option.some.injEq] at found'
  subst found'
  exact ⟨_, foundAfter, literals, dead, redundant⟩

/-- A live clause is found again, and stays irredundant if it was. -/
theorem SameClauses.live?_back (same : SameClauses arena after)
    (live : arena.live? handle = some clause) : ∃ copy, after.live? handle = some copy ∧
      copy.literals = clause.literals ∧
      (clause.isRedundant = false → copy.isRedundant = false) := by
  obtain ⟨found, alive⟩ := live?_eq_some.1 live
  obtain ⟨current, inSlot⟩ := get?_eq_some.1 found
  obtain ⟨copy, inSlotAfter, literals, dead, redundant⟩ := same.slot_back inSlot
  refine ⟨copy, live?_eq_some.2 ⟨get?_eq_some.2 ⟨?_, inSlotAfter⟩, dead.trans alive⟩, literals,
    redundant⟩
  exact current.trans same.epoch.symm

/-- The same clauses have the same contents. -/
theorem SameClauses.contents (same : SameClauses arena after) : after.contents = arena.contents := by
  unfold Arena.contents
  congr 1
  apply List.ext_getElem?
  intro slot
  rw [List.getElem?_map, List.getElem?_map, Array.getElem?_toList, Array.getElem?_toList]
  cases found : arena.slots[slot]? with
  | none =>
    have outside : after.slots.size ≤ slot := by
      rw [same.size]
      exact Array.getElem?_eq_none_iff.1 found
    rw [Array.getElem?_eq_none outside]
  | some old =>
    obtain ⟨clause, foundAfter, literals, dead, _⟩ := same.slot_back found
    rw [foundAfter]
    simp only [Option.map_some, Clause.content, literals, dead]

theorem SameClauses.irredundant (same : SameClauses arena after) (pure : arena.Irredundant) :
    after.Irredundant := by
  intro slot clause found live
  obtain ⟨old, foundOld, _, dead, redundant⟩ := same.slots slot clause found
  exact redundant (pure slot old foundOld (dead ▸ live))

/-! ## What is left without some clauses -/

/-- The literals of the clause of a handle, whether it is live or not. -/
def text (arena : Arena) (handle : Handle) : List Literal :=
  ((arena.get? handle).map Clause.literals).getD []

/-- The literals of the clause that a handle finds. -/
theorem text_of_get? (found : arena.get? handle = some clause) :
    arena.text handle = clause.literals := by
  unfold text
  rw [found]
  rfl

theorem text_of_live? (live : arena.live? handle = some clause) :
    arena.text handle = clause.literals :=
  text_of_get? (live?_eq_some.1 live).1

/-- Live clauses are part of the contents, and the rest belongs to others. -/
theorem exists_without {handles : List Handle} (space : arena.slots.size ≤ UInt32.size) (distinct : handles.Nodup)
    (live : ∀ handle ∈ handles, ∃ clause, arena.live? handle = some clause) :
    ∃ rest : Multiset (List Literal), arena.contents = (handles.map arena.text : List _) + rest ∧
      ∀ literals ∈ rest, ∃ handle clause, arena.live? handle = some clause ∧
        clause.literals = literals ∧ handle ∉ handles := by
  induction handles generalizing arena with
  | nil =>
    refine ⟨arena.contents, by simp, fun literals member => ?_⟩
    obtain ⟨slot, clause, found, alive, same⟩ := mem_contents.1 member
    exact ⟨_, clause, live?_handleAt space found alive, same, by simp⟩
  | cons handle others ih =>
    obtain ⟨absent, distinctOthers⟩ := List.nodup_cons.1 distinct
    obtain ⟨⟨clause, own⟩, liveOthers⟩ := List.forall_mem_cons.1 live
    obtain ⟨found, alive⟩ := live?_eq_some.1 own
    obtain ⟨after, removed⟩ : ∃ after, arena.remove handle = some after := by
      unfold remove
      rw [found]
      exact ⟨_, rfl⟩
    obtain ⟨slots, epoch, _⟩ := slots_remove found removed
    have keeps : ∀ other, other ≠ handle → after.get? other = arena.get? other :=
      fun other different => get?_of_slots found slots epoch different
    have spaceAfter : after.slots.size ≤ UInt32.size := by
      rw [slots, Array.size_setIfInBounds]
      exact space
    have different : ∀ other ∈ others, other ≠ handle := fun other member same =>
      absent (same ▸ member)
    have liveAfter : ∀ other ∈ others, ∃ clause, after.live? other = some clause := by
      intro other member
      unfold live?
      rw [keeps other (different other member)]
      exact liveOthers other member
    obtain ⟨rest, split, fromOthers⟩ := ih spaceAfter distinctOthers liveAfter
    have sameTexts : others.map after.text = others.map arena.text := by
      refine List.map_congr_left fun other member => ?_
      unfold text
      rw [keeps other (different other member)]
    have balance := contents_setSlot (get?_eq_some.1 found).2 slots
    rw [Clause.content_of_live alive, Clause.content_of_dead rfl, add_zero] at balance
    refine ⟨rest, ?_, fun literals member => ?_⟩
    · rw [← balance, split, sameTexts, List.map_cons, ← Multiset.cons_coe, Multiset.cons_add,
        text_of_live? own, add_comm, Multiset.singleton_add]
    · obtain ⟨other, copy, liveOther, same, outside⟩ := fromOthers literals member
      have isOther : other ≠ handle := by
        rintro rfl
        have dead := get?_self_of_slots found slots epoch
        rw [(live?_eq_some.1 liveOther).1, Option.some.injEq] at dead
        rw [dead] at liveOther
        cases (live?_eq_some.1 liveOther).2
      refine ⟨other, copy, ?_, same, fun inside => ?_⟩
      · unfold live? at liveOther ⊢
        rwa [keeps other isOther] at liveOther
      · exact (List.mem_cons.1 inside).elim isOther outside

end Arena

end CnfSimplifier
