import CnfSimplifier.Proofs.Listing

/-!
# Compaction

Closing the gaps moves a live clause to the place given by its rank: the number of
live clauses before it. Ranks of live clauses differ, and every place up to the
number of live clauses is one. A list that is carried over therefore holds the new
handles of exactly the live clauses it held before.
-/
namespace CnfSimplifier

namespace Arena

variable {arena : Arena} {slot : Nat} {clause : Clause} {slots : List Clause}

/-- How many live clauses there are before a slot: its new place. -/
def rank (slots : List Clause) (slot : Nat) : Nat :=
  ((slots.take slot).filter fun clause => !clause.isDead).length

/-- The target of a live slot is its rank. -/
theorem targets_getElem? (slots : List Clause) (next : UInt32) (slot : Nat) :
    (targets slots next)[slot]? = (slots[slot]?).map fun clause =>
      if clause.isDead then Relocation.reclaimedSlot
      else next + UInt32.ofNat (rank slots slot) := by
  induction slots generalizing next slot with
  | nil => simp [targets]
  | cons first rest ih =>
    unfold targets
    cases dead : first.isDead with
    | true =>
      cases slot with
      | zero => simp [dead]
      | succ slot => simp [ih, rank, dead]
    | false =>
      cases slot with
      | zero => simp [dead, rank]
      | succ slot =>
        have shift : next + 1 + UInt32.ofNat (rank rest slot) =
            next + UInt32.ofNat (rank (first :: rest) (slot + 1)) := by
          simp [rank, dead, UInt32.ofNat_add, UInt32.add_assoc, UInt32.add_comm]
        simp [ih, shift]

/-- A live clause moves to the place of its rank. -/
theorem filter_getElem?_rank (found : slots[slot]? = some clause) (live : clause.isDead = false) :
    (slots.filter fun clause => !clause.isDead)[rank slots slot]? = some clause := by
  induction slots generalizing slot with
  | nil => cases found
  | cons first rest ih =>
    cases slot with
    | zero =>
      simp only [List.getElem?_cons_zero, Option.some.injEq] at found
      subst found
      simp [rank, live]
    | succ slot =>
      simp only [List.getElem?_cons_succ] at found
      have later := ih found
      cases dead : first.isDead with
      | true => simpa [rank, dead] using later
      | false => simpa [rank, dead] using later

/-- Every place is the rank of a live clause. -/
theorem exists_rank {place : Nat}
    (found : (slots.filter fun clause => !clause.isDead)[place]? = some clause) :
    ∃ slot, slots[slot]? = some clause ∧ clause.isDead = false ∧ rank slots slot = place := by
  induction slots generalizing place with
  | nil => cases found
  | cons first rest ih =>
    cases dead : first.isDead with
    | true =>
      simp only [List.filter_cons, dead, Bool.not_true, Bool.false_eq_true, if_false] at found
      obtain ⟨slot, foundSlot, live, same⟩ := ih found
      exact ⟨slot + 1, foundSlot, live, by simpa [rank, dead] using same⟩
    | false =>
      simp only [List.filter_cons, dead, Bool.not_false, if_true] at found
      cases place with
      | zero =>
        simp only [List.getElem?_cons_zero, Option.some.injEq] at found
        subst found
        exact ⟨0, rfl, dead, rfl⟩
      | succ place =>
        simp only [List.getElem?_cons_succ] at found
        obtain ⟨slot, foundSlot, live, same⟩ := ih found
        exact ⟨slot + 1, foundSlot, live, by simpa [rank, dead] using same⟩

/-- Live clauses of different slots move to different places. -/
theorem rank_inj {first second : Nat} {a b : Clause} (foundFirst : slots[first]? = some a)
    (liveFirst : a.isDead = false) (foundSecond : slots[second]? = some b)
    (liveSecond : b.isDead = false) (same : rank slots first = rank slots second) :
    first = second := by
  induction slots generalizing first second with
  | nil => cases foundFirst
  | cons head rest ih =>
    cases first with
    | zero =>
      simp only [List.getElem?_cons_zero, Option.some.injEq] at foundFirst
      subst foundFirst
      cases second with
      | zero => rfl
      | succ second => simp [rank, liveFirst] at same
    | succ first =>
      cases second with
      | zero =>
        simp only [List.getElem?_cons_zero, Option.some.injEq] at foundSecond
        subst foundSecond
        simp [rank, liveSecond] at same
      | succ second =>
        simp only [List.getElem?_cons_succ] at foundFirst foundSecond
        have sameRest : rank rest first = rank rest second := by
          cases dead : head.isDead with
          | true => simpa [rank, dead] using same
          | false => simpa [rank, dead] using same
        rw [ih foundFirst foundSecond sameRest]

/-- No clause moves up. -/
theorem rank_le (slots : List Clause) (slot : Nat) : rank slots slot ≤ slot := by
  unfold rank
  refine (List.length_filter_le _ _).trans ?_
  rw [List.length_take]
  exact Nat.min_le_left _ _

/-- What a compaction does to a live clause's handle, and to no other. The reserved
slot is no rank, as long as there are not so many slots. -/
theorem fate_compact {handle new : Handle} (space : arena.slots.size < UInt32.size) :
    arena.compact.1.fate handle = .moved new ↔
      (∃ clause, arena.live? handle = some clause) ∧
        new = ⟨arena.epoch + 1, UInt32.ofNat (rank arena.slots.toList handle.index)⟩ := by
  have target : arena.compact.1.target[handle.index]? = (arena.slots[handle.index]?).map
      fun clause => if clause.isDead then Relocation.reclaimedSlot
        else UInt32.ofNat (rank arena.slots.toList handle.index) := by
    simp [compact, targets_getElem?]
  have fromEpoch : arena.compact.1.fromEpoch = arena.epoch := rfl
  have toEpoch : arena.compact.1.toEpoch = arena.epoch + 1 := rfl
  unfold Relocation.fate
  rw [target, fromEpoch, toEpoch]
  by_cases current : handle.epoch = arena.epoch
  swap
  · rw [if_neg current]
    simp [live?_eq_some, get?_eq_some, current]
  rw [if_pos current]
  cases found : arena.slots[handle.index]? with
  | none => simp [live?_eq_some, get?_eq_some, found]
  | some clause =>
    cases dead : clause.isDead with
    | true => simp [live?_eq_some, get?_eq_some, found, dead]
    | false =>
      have inside : handle.index < arena.slots.size := (Array.getElem?_eq_some_iff.1 found).1
      have unreserved : UInt32.ofNat (rank arena.slots.toList handle.index) ≠
          Relocation.reclaimedSlot := by
        intro same
        have bound := rank_le arena.slots.toList handle.index
        have word : (UInt32.ofNat (rank arena.slots.toList handle.index)).toNat = 4294967295 :=
          congrArg UInt32.toNat same
        have index : (UInt32.ofNat (rank arena.slots.toList handle.index)).toNat =
            rank arena.slots.toList handle.index := UInt32.toNat_ofNat_of_lt (by omega)
        simp only [UInt32.size] at space
        omega
      simp only [Option.map_some, dead, Bool.false_eq_true, if_false, if_neg unreserved,
        Fate.moved.injEq, live?_eq_some, get?_eq_some, current, found, true_and]
      exact ⟨fun same => ⟨⟨clause, rfl, dead⟩, same.symm⟩, fun ⟨_, same⟩ => same.symm⟩

/-- A clause that moved is found under its new handle. -/
theorem live?_of_moved {handle new : Handle} (space : arena.slots.size < UInt32.size)
    (moved : arena.compact.1.fate handle = .moved new) : ∃ clause,
      arena.live? handle = some clause ∧ arena.compact.2.live? new = some clause ∧
        new.index = rank arena.slots.toList handle.index := by
  obtain ⟨⟨clause, live⟩, rfl⟩ := (fate_compact space).1 moved
  obtain ⟨found, alive⟩ := live?_eq_some.1 live
  obtain ⟨_, inSlot⟩ := get?_eq_some.1 found
  have inside : handle.index < arena.slots.size := (Array.getElem?_eq_some_iff.1 inSlot).1
  have bound := rank_le arena.slots.toList handle.index
  have index : (UInt32.ofNat (rank arena.slots.toList handle.index)).toNat =
      rank arena.slots.toList handle.index := UInt32.toNat_ofNat_of_lt (by omega)
  have placed : arena.compact.2.slots[rank arena.slots.toList handle.index]? = some clause := by
    rw [← Array.getElem?_toList]
    simp only [compact, Array.toList_filter]
    exact filter_getElem?_rank (by rw [Array.getElem?_toList, inSlot]) alive
  refine ⟨clause, live, live?_eq_some.2 ⟨get?_eq_some.2 ⟨rfl, ?_⟩, alive⟩, index⟩
  change arena.compact.2.slots[(UInt32.ofNat (rank arena.slots.toList handle.index)).toNat]? = _
  rw [index, placed]

theorem contents_compact (arena : Arena) : arena.compact.2.contents = arena.contents := by
  rw [contents_eq_liveClauses, contents_eq_liveClauses]
  simp [compact, liveClauses]

/-- A compaction makes no clause redundant. -/
theorem irredundant_compact (pure : arena.Irredundant) : arena.compact.2.Irredundant := by
  intro slot clause found live
  rw [← Array.getElem?_toList] at found
  simp only [compact, Array.toList_filter] at found
  obtain ⟨old, foundOld, _, _⟩ := exists_rank found
  rw [Array.getElem?_toList] at foundOld
  exact pure old clause foundOld live

end Arena

namespace Relocation

variable {relocation : Relocation}

/-- A list that is carried over holds the new handles of the clauses that moved. -/
theorem mem_carry {handles carried : List Handle} (carries : relocation.carry handles = some carried)
    {new : Handle} : new ∈ carried ↔ ∃ handle ∈ handles, relocation.fate handle = .moved new := by
  induction handles generalizing carried with
  | nil =>
    simp only [carry, Option.some.injEq] at carries
    subst carries
    simp
  | cons handle rest ih =>
    unfold carry at carries
    split at carries
    next target moved =>
      obtain ⟨later, carriesRest, rfl⟩ := Option.map_eq_some_iff.1 carries
      simp [ih carriesRest, moved, eq_comm]
    next reclaimed => simp [ih carries, reclaimed]
    next => cases carries

/-- Different handles are carried to different handles. -/
theorem nodup_carry {handles carried : List Handle}
    (carries : relocation.carry handles = some carried) (nodup : handles.Nodup)
    (inj : ∀ a ∈ handles, ∀ b ∈ handles, ∀ new, relocation.fate a = .moved new →
      relocation.fate b = .moved new → a = b) : carried.Nodup := by
  induction handles generalizing carried with
  | nil =>
    simp only [carry, Option.some.injEq] at carries
    subst carries
    exact List.nodup_nil
  | cons handle rest ih =>
    obtain ⟨absent, nodupRest⟩ := List.nodup_cons.1 nodup
    have injRest : ∀ a ∈ rest, ∀ b ∈ rest, ∀ new, relocation.fate a = .moved new →
        relocation.fate b = .moved new → a = b := fun a inA b inB =>
      inj a (List.mem_cons_of_mem _ inA) b (List.mem_cons_of_mem _ inB)
    unfold carry at carries
    split at carries
    next target moved =>
      obtain ⟨later, carriesRest, rfl⟩ := Option.map_eq_some_iff.1 carries
      refine List.nodup_cons.2 ⟨fun member => ?_, ih carriesRest nodupRest injRest⟩
      obtain ⟨other, inRest, movedOther⟩ := (mem_carry carriesRest).1 member
      have same := inj handle List.mem_cons_self other (List.mem_cons_of_mem _ inRest) target
        moved movedOther
      exact absent (same ▸ inRest)
    next => exact ih carries nodupRest injRest
    next => cases carries

/-- Carrying within an array reads the handles that are left before any of them is
overwritten. -/
theorem carryWithin_eq (left place kept : Nat) (handles : Array Handle)
    (behind : kept ≤ place) (size : place + left = handles.size) :
    relocation.carryWithin left place kept handles =
      (relocation.carry (handles.toList.drop place)).map fun rest =>
        (handles.toList.take kept ++ rest).toArray := by
  induction left generalizing place kept handles with
  | zero =>
    have done : handles.toList.drop place = [] := List.drop_eq_nil_of_le (by simp; omega)
    rw [done]
    simp [carryWithin, carry, ← Array.toList_inj]
  | succ left ih =>
    have inside : place < handles.size := by omega
    have next : handles.toList.drop place = handles[place] :: handles.toList.drop (place + 1) := by
      rw [List.drop_eq_getElem_cons (by simpa using inside), Array.getElem_toList]
    unfold carryWithin
    rw [Array.getElem?_eq_getElem inside, next]
    unfold carry
    cases fate : relocation.fate handles[place] with
    | moved new =>
      simp only [fate]
      rw [ih (place + 1) (kept + 1) _ (by omega) (by rw [Array.size_setIfInBounds]; omega)]
      have unread : (handles.setIfInBounds kept new).toList.drop (place + 1) =
          handles.toList.drop (place + 1) := by
        rw [Array.toList_setIfInBounds, List.drop_set_of_lt (by omega)]
      have written : (handles.setIfInBounds kept new).toList.take (kept + 1) =
          handles.toList.take kept ++ [new] := by
        rw [Array.toList_setIfInBounds, List.take_add_one, List.take_set_of_le (Nat.le_refl _)]
        simp [show kept < handles.size by omega]
      rw [unread, written, Option.map_map]
      simp [Function.comp_def]
    | reclaimed =>
      simp only [fate]
      exact ih (place + 1) kept handles (by omega) (by omega)
    | stale => simp only [fate, Option.map_none]

/-- Carrying an array over within itself is carrying the list of its handles over. -/
theorem carryArray_eq (handles : Array Handle) :
    relocation.carryArray handles = (relocation.carry handles.toList).map List.toArray := by
  unfold carryArray
  rw [carryWithin_eq _ 0 0 handles (Nat.le_refl 0) (by omega)]
  simp
end Relocation

namespace Occurrences

variable {relocation : Relocation}

/-- Every entry is carried over on its own. -/
theorem carryEntries_getElem? {entries carried : List Occurrence}
    (carries : carryEntries relocation entries = some carried) (place : Nat) :
    (carried[place]?).map Occurrence.handles =
      (entries[place]?).bind fun entry => relocation.carryArray entry.handles := by
  induction entries generalizing carried place with
  | nil =>
    simp only [carryEntries, Option.some.injEq] at carries
    subst carries
    simp
  | cons entry rest ih =>
    simp only [carryEntries, Option.bind_eq_bind, Option.bind_eq_some_iff, Option.pure_def,
      Option.some.injEq] at carries
    obtain ⟨handles, carriesFirst, later, carriesRest, rfl⟩ := carries
    cases place with
    | zero => simp [carriesFirst]
    | succ place => simpa using ih carriesRest place

/-- If all entries are carried over, each of them is. -/
theorem exists_carryArray {entries carried : List Occurrence}
    (carries : carryEntries relocation entries = some carried) :
    ∀ entry ∈ entries, ∃ handles, relocation.carryArray entry.handles = some handles := by
  induction entries generalizing carried with
  | nil => simp
  | cons entry rest ih =>
    simp only [carryEntries, Option.bind_eq_bind, Option.bind_eq_some_iff, Option.pure_def,
      Option.some.injEq] at carries
    obtain ⟨handles, carriesFirst, later, carriesRest, rfl⟩ := carries
    intro other member
    rcases List.mem_cons.1 member with rfl | inRest
    · exact ⟨handles, carriesFirst⟩
    · exact ih carriesRest other inRest

/-- Every list of handles can be carried over. -/
theorem exists_list?_relocate {index after : Occurrences}
    (relocated : index.relocate relocation = some after) {literal : Literal}
    {handles : Array Handle} (list : index.list? literal = some handles) :
    ∃ new, relocation.carryArray handles = some new := by
  obtain ⟨entries, carries, _⟩ := relocate_eq_some.1 relocated
  obtain ⟨entry, found, rfl⟩ := Option.map_eq_some_iff.1 list
  exact exists_carryArray carries entry (Array.mem_toList_iff.2 (Array.mem_of_getElem? found))

/-- After relocation a list has the handles that were carried over. -/
theorem list?_relocate {index after : Occurrences}
    (relocated : index.relocate relocation = some after) (literal : Literal) :
    after.list? literal = (index.list? literal).bind relocation.carryArray := by
  obtain ⟨entries, carries, rfl⟩ := relocate_eq_some.1 relocated
  have place := carryEntries_getElem? carries literal.index
  rw [Array.getElem?_toList] at place
  rw [list?_eq, list?_eq, Option.bind_map]
  simpa [Function.comp_def] using place

end Occurrences

/-- Lists that are carried over a compaction are right for the compact arena. -/
theorem Listed.relocate {index after : Occurrences} {arena : Arena} (listed : Listed index arena)
    (space : arena.slots.size < UInt32.size)
    (relocated : index.relocate arena.compact.1 = some after) :
    Listed after arena.compact.2 := by
  have slots : arena.compact.2.slots.toList =
      arena.slots.toList.filter fun clause => !clause.isDead := by
    simp [Arena.compact]
  -- A carried list comes from an old one.
  have old : ∀ literal new, after.list? literal = some new → ∃ old carried,
      index.list? literal = some old ∧ arena.compact.1.carry old.toList = some carried ∧
        new.toList = carried := by
    intro literal new list
    rw [Occurrences.list?_relocate relocated] at list
    obtain ⟨old, oldList, carries⟩ := Option.bind_eq_some_iff.1 list
    rw [Relocation.carryArray_eq] at carries
    obtain ⟨carried, carriesList, rfl⟩ := Option.map_eq_some_iff.1 carries
    exact ⟨old, carried, oldList, carriesList, rfl⟩
  -- A new handle comes from an old one of a live clause.
  have from_old : ∀ literal new, after.list? literal = some new → ∀ other ∈ new.toList,
      ∃ old handle clause, index.list? literal = some old ∧ handle ∈ old.toList ∧
        arena.live? handle = some clause ∧ arena.compact.2.live? other = some clause := by
    intro literal new list other member
    obtain ⟨before, carried, oldList, carries, same⟩ := old literal new list
    rw [same, Relocation.mem_carry carries] at member
    obtain ⟨handle, inOld, moved⟩ := member
    obtain ⟨clause, live, liveNew, _⟩ := Arena.live?_of_moved space moved
    exact ⟨before, handle, clause, oldList, inOld, live, liveNew⟩
  refine ⟨?_, ?_, ?_, ?_⟩
  · intro place clause found live literal member
    rw [← Array.getElem?_toList, slots] at found
    obtain ⟨slot, inSlot, _, rfl⟩ := Arena.exists_rank found
    rw [Array.getElem?_toList] at inSlot
    obtain ⟨handles, list, inList⟩ := listed.complete slot clause inSlot live literal member
    obtain ⟨new, carries⟩ := Occurrences.exists_list?_relocate relocated list
    refine ⟨new, by rw [Occurrences.list?_relocate relocated, list]; exact carries, ?_⟩
    rw [Relocation.carryArray_eq] at carries
    obtain ⟨carried, carriesList, rfl⟩ := Option.map_eq_some_iff.1 carries
    have inside : slot < arena.slots.size := (Array.getElem?_eq_some_iff.1 inSlot).1
    have slotIndex : (arena.handleAt slot).index = slot := Arena.index_handleAt (by omega)
    refine (Relocation.mem_carry carriesList).2 ⟨_, inList, (Arena.fate_compact space).2 ⟨⟨clause, ?_⟩, ?_⟩⟩
    · exact Arena.live?_handleAt space.le inSlot live
    · rw [slotIndex]
      rfl
  · intro literal new list
    obtain ⟨before, carried, oldList, carries, same⟩ := old literal new list
    rw [same]
    refine Relocation.nodup_carry carries (listed.nodup literal before oldList) ?_
    intro a _ b _ new movedA movedB
    obtain ⟨clauseA, liveA, _, rankA⟩ := Arena.live?_of_moved space movedA
    obtain ⟨clauseB, liveB, _, rankB⟩ := Arena.live?_of_moved space movedB
    have sameRank := rankA.symm.trans rankB
    obtain ⟨foundA, aliveA⟩ := Arena.live?_eq_some.1 liveA
    obtain ⟨foundB, aliveB⟩ := Arena.live?_eq_some.1 liveB
    obtain ⟨currentA, inSlotA⟩ := Arena.get?_eq_some.1 foundA
    obtain ⟨currentB, inSlotB⟩ := Arena.get?_eq_some.1 foundB
    rw [← Array.getElem?_toList] at inSlotA inSlotB
    have sameIndex := Arena.rank_inj inSlotA aliveA inSlotB aliveB sameRank
    rw [← Arena.handleAt_index currentA, sameIndex, Arena.handleAt_index currentB]
  · intro literal new list other member
    obtain ⟨_, _, _, _, _, _, liveNew⟩ := from_old literal new list other member
    obtain ⟨found, _⟩ := Arena.live?_eq_some.1 liveNew
    obtain ⟨current, inSlot⟩ := Arena.get?_eq_some.1 found
    exact ⟨current, (Array.getElem?_eq_some_iff.1 inSlot).1⟩
  · intro literal new list other member clause liveOther
    obtain ⟨before, handle, old, oldList, inOld, live, liveNew⟩ :=
      from_old literal new list other member
    rw [liveNew, Option.some.injEq] at liveOther
    exact liveOther ▸ listed.sound literal before oldList handle inOld old live

end CnfSimplifier
