import CnfSimplifier.Proofs.Storage

/-!
# Lists of clauses by literal

The lists of the index are right for an arena if every live clause is listed under
each of its literals, no handle is listed twice, and a listed clause that is live
contains the literal. Dead clauses may be listed; handles of other epochs and of
slots that do not exist may not.

Each operation that changes the arena and the index together keeps the lists
right.
-/
namespace CnfSimplifier

theorem Literal.index_inj {a b : Literal} : a.index = b.index ↔ a = b := by
  constructor
  · intro same
    exact Literal.ext (UInt32.toNat_inj.1 same)
  · rintro rfl
    rfl

namespace Occurrences

variable {index after : Occurrences} {literal : Literal} {change : Occurrence → Occurrence}
  {literals : List Literal} {handle : Handle}

theorem list?_eq (index : Occurrences) (literal : Literal) :
    index.list? literal = (index.entries[literal.index]?).map Occurrence.handles := rfl

/-- A change of one entry leaves the others, the list of dirty ones and the room. -/
theorem entry?_modify? (changed : index.modify? literal change = some after) :
    (∀ other, after.entry? other = if other = literal then (index.entry? other).map change
      else index.entry? other) ∧ after.dirty = index.dirty ∧
      after.entries.size = index.entries.size := by
  unfold modify? at changed
  split at changed
  · simp only [Option.some.injEq] at changed
    subst changed
    refine ⟨fun other => ?_, rfl, Array.size_modify⟩
    simp only [ entry?, Array.getElem?_modify]
    by_cases same : other = literal
    · simp [same]
    · have different : literal.index ≠ other.index := fun equal =>
        same (Literal.index_inj.1 equal).symm
      simp [same, different]
  · cases changed

/-- A walk over literals that changes the entry of each of them. -/
theorem entry?_walk (walk : Occurrences → List Literal → Option Occurrences)
    (done : ∀ index, walk index [] = some index)
    (goes : ∀ index literal rest, walk index (literal :: rest) =
      (index.modify? literal change).bind fun index => walk index rest) (distinct : literals.Nodup)
    (walked : walk index literals = some after) :
    (∀ other, after.entry? other =
      if other ∈ literals then (index.entry? other).map change else index.entry? other) ∧
      after.dirty = index.dirty ∧ after.entries.size = index.entries.size := by
  induction literals generalizing index with
  | nil =>
    obtain rfl := Option.some.inj ((done index).symm.trans walked)
    simp
  | cons literal rest ih =>
    rw [goes, Option.bind_eq_some_iff] at walked
    obtain ⟨middle, changed, walkedRest⟩ := walked
    obtain ⟨absent, distinctRest⟩ := List.nodup_cons.1 distinct
    obtain ⟨entries, dirty, size⟩ := ih distinctRest walkedRest
    obtain ⟨entriesFirst, dirtyFirst, sizeFirst⟩ := entry?_modify? changed
    refine ⟨fun other => ?_, dirty.trans dirtyFirst, size.trans sizeFirst⟩
    rw [entries, entriesFirst]
    by_cases same : other = literal
    · subst same
      simp [absent]
    · simp [same]

/-- A clause is put into the entries of its literals. -/
theorem entry?_add (distinct : literals.Nodup) (added : index.add handle literals = some after) :
    (∀ other, after.entry? other = if other ∈ literals then
      (index.entry? other).map fun entry =>
        { entry with handles := entry.handles.push handle, count := entry.count + 1 }
      else index.entry? other) ∧ after.dirty = index.dirty ∧
      after.entries.size = index.entries.size :=
  entry?_walk (·.add handle) (fun _ => rfl) (fun _ _ _ => rfl) distinct added

/-- A clause is taken out of the entries of its literals. -/
theorem entry?_remove (distinct : literals.Nodup)
    (removed : index.remove handle literals = some after) :
    (∀ other, after.entry? other = if other ∈ literals then
      (index.entry? other).map fun entry =>
        { entry with handles := Bag.erase entry.handles handle, count := entry.count - 1 }
      else index.entry? other) ∧ after.dirty = index.dirty ∧
      after.entries.size = index.entries.size :=
  entry?_walk (·.remove handle) (fun _ => rfl) (fun _ _ _ => rfl) distinct removed

/-- What becomes of a list is what becomes of the handles of its entry. -/
theorem list?_of_entry (lists : Array Handle → Array Handle) {condition : Prop}
    [Decidable condition] (keeps : ∀ entry, (change entry).handles = lists entry.handles)
    (entries : after.entry? literal =
      if condition then (index.entry? literal).map change else index.entry? literal) :
    after.list? literal =
      if condition then (index.list? literal).map lists else index.list? literal := by
  rw [list?, entries, list?]
  split
  · simp [Function.comp_def, keeps]
  · rfl

/-- A change of an entry that leaves its list. -/
theorem list?_modify?_of_same (changed : index.modify? literal change = some after)
    (keeps : ∀ entry, (change entry).handles = entry.handles) (other : Literal) :
    after.list? other = index.list? other := by
  rw [list?_of_entry id keeps ((entry?_modify? changed).1 other)]
  simp

/-- A handle is added to the lists of the literals. -/
theorem list?_add (distinct : literals.Nodup) (added : index.add handle literals = some after)
    (other : Literal) :
    after.list? other =
      if other ∈ literals then (index.list? other).map fun handles => handles.push handle
      else index.list? other :=
  list?_of_entry _ (fun _ => rfl) ((entry?_add distinct added).1 other)

/-- It is removed from these lists. -/
theorem list?_remove (distinct : literals.Nodup)
    (removed : index.remove handle literals = some after) (other : Literal) :
    after.list? other =
      if other ∈ literals then (index.list? other).map fun handles => Bag.erase handles handle
      else index.list? other :=
  list?_of_entry _ (fun _ => rfl) ((entry?_remove distinct removed).1 other)

/-- It is removed from one list. -/
theorem list?_removeFrom (removed : index.removeFrom handle literal = some after)
    (other : Literal) :
    after.list? other =
      if other = literal then (index.list? other).map fun handles => Bag.erase handles handle
      else index.list? other :=
  list?_of_entry _ (fun _ => rfl) ((entry?_modify? removed).1 other)

/-- A clause is added only where there are lists. -/
theorem list?_of_add (added : index.add handle literals = some after)
    (member : literal ∈ literals) :
    ∃ handles, index.list? literal = some handles := by
  induction literals generalizing index with
  | nil => cases member
  | cons first rest ih =>
    simp only [add, Option.bind_eq_bind, Option.bind_eq_some_iff] at added
    obtain ⟨middle, changed, addedRest⟩ := added
    by_cases same : literal = first
    · subst same
      unfold modify? at changed
      split at changed
      next inside =>
        exact ⟨index.entries[literal.index].handles, by
          simp [list?_eq, Array.getElem?_eq_getElem inside]⟩
      next => cases changed
    · obtain ⟨handles, list⟩ := ih addedRest ((List.mem_cons.1 member).resolve_left same)
      rw [list?, (entry?_modify? changed).1, if_neg same] at list
      exact ⟨handles, list⟩

/-- Marking a list dirty leaves all lists. -/
theorem list?_markDirty (marked : index.markDirty literal = some after) (other : Literal) :
    after.list? other = index.list? other := by
  simp only [markDirty, Option.bind_eq_bind, Option.bind_eq_some_iff] at marked
  obtain ⟨entry, _, marked⟩ := marked
  split at marked
  · simp only [Option.pure_def, Option.some.injEq] at marked
    rw [marked]
  · simp only [Option.pure_def, Option.bind_eq_some_iff, Option.some.injEq] at marked
    obtain ⟨middle, changed, rfl⟩ := marked
    exact list?_modify?_of_same changed (fun _ => rfl) other

/-- Lazy removal leaves the lists. -/
theorem list?_removeLazily (removed : index.removeLazily literals = some after) (other : Literal) :
    after.list? other = index.list? other := by
  induction literals generalizing index with
  | nil =>
    simp only [removeLazily, Option.some.injEq] at removed
    rw [removed]
  | cons literal rest ih =>
    simp only [removeLazily, Option.bind_eq_bind, Option.bind_eq_some_iff] at removed
    obtain ⟨counted, changed, marked, dirty, removedRest⟩ := removed
    rw [ih removedRest, list?_markDirty dirty, list?_modify?_of_same changed fun _ => rfl]

/-- A new variable has empty lists. -/
theorem list?_addVar (index : Occurrences) (other : Literal) :
    index.addVar.list? other = index.list? other ∨
      (index.list? other = none ∧ index.addVar.list? other = some #[]) := by
  simp only [list?_eq, addVar, Array.getElem?_push, Array.size_push]
  by_cases inside : other.index < index.entries.size
  · left
    rw [if_neg (by omega), if_neg (by omega)]
  · have outside : index.entries[other.index]? = none :=
      Array.getElem?_eq_none (by omega)
    rw [outside]
    split
    · exact .inr ⟨rfl, rfl⟩
    · split
      · exact .inr ⟨rfl, rfl⟩
      · exact .inl rfl

end Occurrences

/-- The lists of an index are right for an arena. -/
structure Listed (index : Occurrences) (arena : Arena) : Prop where
  complete : ∀ (slot : Nat) (clause : Clause), arena.slots[slot]? = some clause →
    clause.isDead = false → ∀ literal ∈ clause.literals,
      ∃ handles, index.list? literal = some handles ∧ arena.handleAt slot ∈ handles.toList
  nodup : ∀ literal handles, index.list? literal = some handles → handles.toList.Nodup
  current : ∀ literal handles, index.list? literal = some handles →
    ∀ handle ∈ handles.toList, handle.epoch = arena.epoch ∧ handle.index < arena.slots.size
  sound : ∀ literal handles, index.list? literal = some handles →
    ∀ handle ∈ handles.toList, ∀ clause, arena.live? handle = some clause →
      literal ∈ clause.literals

namespace Listed

variable {index after : Occurrences} {arena arenaAfter : Arena} {handle : Handle} {clause : Clause}
  {literal : Literal}

/-- A live clause with a literal is in the list of the literal. -/
theorem mem_of_live (listed : Listed index arena) (live : arena.live? handle = some clause)
    (member : literal ∈ clause.literals) {handles : Array Handle}
    (list : index.list? literal = some handles) : handle ∈ handles.toList := by
  obtain ⟨found, alive⟩ := Arena.live?_eq_some.1 live
  obtain ⟨current, inSlot⟩ := Arena.get?_eq_some.1 found
  obtain ⟨handles', list', inList⟩ := listed.complete _ clause inSlot alive literal member
  rw [list, Option.some.injEq] at list'
  subst list'
  rwa [Arena.handleAt_index current] at inList

/-- Other marks on the clauses leave the lists right. -/
theorem of_sameClauses (listed : Listed index arena) (same : arena.SameClauses arenaAfter) :
    Listed index arenaAfter := by
  refine ⟨?_, listed.nodup, ?_, ?_⟩
  · intro slot clause found live literal member
    obtain ⟨old, foundOld, literals, dead, _⟩ := same.slots slot clause found
    obtain ⟨handles, list, inList⟩ :=
      listed.complete slot old foundOld (dead ▸ live) literal (literals ▸ member)
    refine ⟨handles, list, ?_⟩
    unfold Arena.handleAt at inList ⊢
    rwa [same.epoch]
  · intro literal handles list handle member
    rw [same.epoch, same.size]
    exact listed.current literal handles list handle member
  · intro literal handles list handle member clause live
    obtain ⟨found, alive⟩ := Arena.live?_eq_some.1 live
    obtain ⟨current, inSlot⟩ := Arena.get?_eq_some.1 found
    obtain ⟨old, foundOld, literals, dead, _⟩ := same.slots _ clause inSlot
    rw [literals]
    refine listed.sound literal handles list handle member old ?_
    rw [Arena.live?_eq_some, Arena.get?_eq_some]
    exact ⟨⟨current.trans same.epoch, foundOld⟩, dead ▸ alive⟩

/-- The same lists are right. -/
theorem of_list?_eq (listed : Listed index arena)
    (same : ∀ literal, after.list? literal = index.list? literal) : Listed after arena := by
  refine ⟨?_, ?_, ?_, ?_⟩
  · intro slot clause found live literal member
    rw [same]
    exact listed.complete slot clause found live literal member
  · intro literal handles list
    exact listed.nodup literal handles (same literal ▸ list)
  · intro literal handles list
    exact listed.current literal handles (same literal ▸ list)
  · intro literal handles list
    exact listed.sound literal handles (same literal ▸ list)

/-- A new variable has empty lists. -/
theorem addVar (listed : Listed index arena) : Listed index.addVar arena := by
  have old : ∀ literal handles, index.addVar.list? literal = some handles →
      index.list? literal = some handles ∨ handles = #[] := by
    intro literal handles list
    rcases index.list?_addVar literal with same | ⟨_, empty⟩
    · exact .inl (same ▸ list)
    · rw [list, Option.some.injEq] at empty
      exact .inr empty
  refine ⟨?_, ?_, ?_, ?_⟩
  · intro slot clause found live literal member
    obtain ⟨handles, list, inList⟩ := listed.complete slot clause found live literal member
    rcases index.list?_addVar literal with same | ⟨none, _⟩
    · exact ⟨handles, same ▸ list, inList⟩
    · rw [list] at none
      cases none
  · intro literal handles list
    rcases old literal handles list with list | rfl
    · exact listed.nodup literal handles list
    · exact List.nodup_nil
  · intro literal handles list handle member
    rcases old literal handles list with list | rfl
    · exact listed.current literal handles list handle member
    · cases member
  · intro literal handles list handle member
    rcases old literal handles list with list | rfl
    · exact listed.sound literal handles list handle member
    · cases member

/-- A change of one slot and of the places of its handle leaves the lists right, if
they are right for this slot. -/
theorem of_slot (listed : Listed index arena) (handle : Handle)
    (epoch : arenaAfter.epoch = arena.epoch) (current : handle.epoch = arena.epoch)
    (inside : handle.index < arenaAfter.slots.size)
    (space : arenaAfter.slots.size ≤ UInt32.size)
    (size : arena.slots.size ≤ arenaAfter.slots.size)
    (others : ∀ slot, slot ≠ handle.index → ∀ clause, arenaAfter.slots[slot]? = some clause →
      arena.slots[slot]? = some clause)
    (defined : ∀ literal, (after.list? literal).isSome = (index.list? literal).isSome)
    (lists : ∀ literal old new, index.list? literal = some old → after.list? literal = some new →
      new.toList.Nodup ∧ ∀ other, other ≠ handle → (other ∈ new.toList ↔ other ∈ old.toList))
    (own : ∀ clause, arenaAfter.slots[handle.index]? = some clause → clause.isDead = false →
      ∀ literal, literal ∈ clause.literals ↔
        ∃ handles, after.list? literal = some handles ∧ handle ∈ handles.toList) :
    Listed after arenaAfter := by
  -- Every list after the change comes from one before it.
  have old : ∀ literal new, after.list? literal = some new → ∃ old,
      index.list? literal = some old ∧ new.toList.Nodup ∧
        ∀ other, other ≠ handle → (other ∈ new.toList ↔ other ∈ old.toList) := by
    intro literal new list
    have some := defined literal
    rw [list, Option.isSome_some, eq_comm, Option.isSome_iff_exists] at some
    obtain ⟨old, oldList⟩ := some
    exact ⟨old, oldList, lists literal old new oldList list⟩
  refine ⟨?_, ?_, ?_, ?_⟩
  · intro slot clause found live literal member
    by_cases same : slot = handle.index
    · subst same
      obtain ⟨handles, list, inList⟩ := (own clause found live literal).1 member
      refine ⟨handles, list, ?_⟩
      rwa [Arena.handleAt_index (current.trans epoch.symm)]
    · obtain ⟨handles, list, inList⟩ :=
        listed.complete slot clause (others slot same clause found) live literal member
      have some := defined literal
      rw [list, Option.isSome_some, Option.isSome_iff_exists] at some
      obtain ⟨new, newList⟩ := some
      refine ⟨new, newList, ?_⟩
      have different : arena.handleAt slot ≠ handle := by
        intro equal
        have bound : slot < arenaAfter.slots.size := (Array.getElem?_eq_some_iff.1 found).1
        apply same
        rw [← equal, Arena.index_handleAt (by omega)]
      have there := ((lists literal handles new list newList).2 _ different).2 inList
      unfold Arena.handleAt at there ⊢
      rwa [epoch]
  · intro literal new list
    obtain ⟨_, _, nodup, _⟩ := old literal new list
    exact nodup
  · intro literal new list other member
    obtain ⟨handles, oldList, _, same⟩ := old literal new list
    by_cases equal : other = handle
    · rw [equal, epoch]
      exact ⟨current, inside⟩
    · obtain ⟨current, inside⟩ :=
        listed.current literal handles oldList other ((same other equal).1 member)
      exact ⟨current.trans epoch.symm, by omega⟩
  · intro literal new list other member clause live
    obtain ⟨found, alive⟩ := Arena.live?_eq_some.1 live
    obtain ⟨currentOther, inSlot⟩ := Arena.get?_eq_some.1 found
    by_cases equal : other = handle
    · subst equal
      exact (own clause inSlot alive literal).2 ⟨new, list, member⟩
    · obtain ⟨handles, oldList, _, same⟩ := old literal new list
      have different : other.index ≠ handle.index := by
        intro sameIndex
        apply equal
        rw [← Arena.handleAt_index currentOther, sameIndex,
          Arena.handleAt_index (current.trans epoch.symm)]
      refine listed.sound literal handles oldList other ((same other equal).1 member) clause ?_
      rw [Arena.live?_eq_some, Arena.get?_eq_some]
      exact ⟨⟨currentOther.trans epoch, others _ different clause inSlot⟩, alive⟩

/-- A new clause is listed under its literals. -/
theorem insert (listed : Listed index arena) {literals : List Literal} {redundant : Bool}
    (space : arena.slots.size < UInt32.size)
    (added : index.add (arena.handleAt arena.slots.size)
      (Clause.ofLiterals literals redundant).literals = some after) :
    Listed after (arena.insert literals redundant).2 := by
  let clause := Clause.ofLiterals literals redundant
  have lists := Occurrences.list?_add (Literal.nodup_of_pairwise_lt clause.sorted) added
  have place : (arena.handleAt arena.slots.size).index = arena.slots.size :=
    Arena.index_handleAt space
  -- The new handle names no old slot, so it is in no list yet.
  have fresh : ∀ literal handles, index.list? literal = some handles →
      arena.handleAt arena.slots.size ∉ handles.toList := by
    intro literal handles list member
    have inside := (listed.current literal handles list _ member).2
    rw [place] at inside
    exact absurd inside (Nat.lt_irrefl _)
  have slots : (arena.insert literals redundant).2.slots = arena.slots.push clause := rfl
  refine listed.of_slot (arena.handleAt arena.slots.size) rfl rfl ?_ ?_ ?_ ?_ ?_ ?_ ?_
  · rw [place, slots, Array.size_push]
    omega
  · rw [slots, Array.size_push]
    omega
  · rw [slots, Array.size_push]
    omega
  · intro slot different other found
    rw [slots, Array.getElem?_push, if_neg (place ▸ different)] at found
    exact found
  · intro literal
    rw [lists]
    split
    · rw [Option.isSome_map]
    · rfl
  · intro literal old new oldList newList
    rw [lists] at newList
    have nodup := listed.nodup literal old oldList
    split at newList
    · rw [oldList, Option.map_some, Option.some.injEq] at newList
      subst newList
      rw [Array.toList_push]
      refine ⟨List.nodup_append.2 ⟨nodup, by simp, ?_⟩, fun other different => by simp [different]⟩
      intro handle inOld other isNew same
      rw [List.mem_singleton.1 isNew] at same
      exact fresh literal old oldList (same ▸ inOld)
    · rw [oldList, Option.some.injEq] at newList
      subst newList
      exact ⟨nodup, fun _ _ => Iff.rfl⟩
  · intro stored found _ literal
    rw [slots, place, Array.getElem?_push_size, Option.some.injEq] at found
    subst found
    rw [lists]
    split
    next member =>
      refine ⟨fun _ => ?_, fun _ => member⟩
      obtain ⟨handles, list⟩ := Occurrences.list?_of_add added member
      refine ⟨handles.push (arena.handleAt arena.slots.size), by rw [list]; rfl, ?_⟩
      rw [Array.toList_push]
      exact List.mem_append_right _ (List.mem_singleton_self _)
    next absent =>
      refine ⟨fun member => absurd member absent, ?_⟩
      rintro ⟨handles, list, inList⟩
      exact absurd inList (fresh literal handles list)

/-- A list from which the handle of a clause was taken. -/
theorem erased_handle (listed : Listed index arena) {old : Array Handle}
    (list : index.list? literal = some old) (handle : Handle) :
    (Bag.erase old handle).toList.Nodup ∧ handle ∉ (Bag.erase old handle).toList ∧
      ∀ other, other ≠ handle → (other ∈ (Bag.erase old handle).toList ↔ other ∈ old.toList) := by
  have permuted := Bag.erase_perm old handle
  have nodup := listed.nodup literal old list
  refine ⟨permuted.symm.nodup (nodup.erase handle), ?_, ?_⟩
  · rw [permuted.mem_iff]
    exact nodup.not_mem_erase
  · intro other different
    rw [permuted.mem_iff]
    exact List.mem_erase_of_ne different

/-- One clause is replaced, and some lists lose its handle. -/
theorem of_erasure (listed : Listed index arena) (space : arena.slots.size ≤ UInt32.size)
    (found : arena.get? handle = some clause) {new : Clause}
    (slots : arenaAfter.slots = arena.slots.setIfInBounds handle.index new)
    (epoch : arenaAfter.epoch = arena.epoch)
    (lists : ∀ literal, after.list? literal = index.list? literal ∨
      after.list? literal = (index.list? literal).map fun handles => Bag.erase handles handle)
    (own : new.isDead = false → ∀ literal, literal ∈ new.literals ↔
      ∃ handles, after.list? literal = some handles ∧ handle ∈ handles.toList) :
    Listed after arenaAfter := by
  obtain ⟨current, inSlot⟩ := Arena.get?_eq_some.1 found
  have bound : handle.index < arena.slots.size := (Array.getElem?_eq_some_iff.1 inSlot).1
  have size : arenaAfter.slots.size = arena.slots.size := by
    rw [slots, Array.size_setIfInBounds]
  refine listed.of_slot handle epoch current (by omega) (by omega) (by omega) ?_ ?_ ?_ ?_
  · intro slot different other foundAfter
    rw [slots] at foundAfter
    rcases Arena.slot_of_set inSlot foundAfter with ⟨same, _⟩ | ⟨_, unchanged⟩
    · exact absurd same different
    · exact unchanged
  · intro literal
    rcases lists literal with same | erased
    · rw [same]
    · rw [erased, Option.isSome_map]
  · intro literal old new oldList newList
    rcases lists literal with same | erased
    · rw [same, oldList, Option.some.injEq] at newList
      subst newList
      exact ⟨listed.nodup literal old oldList, fun _ _ => Iff.rfl⟩
    · rw [erased, oldList, Option.map_some, Option.some.injEq] at newList
      subst newList
      obtain ⟨nodup, _, others⟩ := listed.erased_handle oldList handle
      exact ⟨nodup, others⟩
  · intro stored foundAfter live
    rw [slots] at foundAfter
    rcases Arena.slot_of_set inSlot foundAfter with ⟨_, rfl⟩ | ⟨different, _⟩
    · exact own live
    · exact absurd rfl different

/-- A clause that is marked dead may be taken out of the lists or stay there. -/
theorem kill (listed : Listed index arena) (space : arena.slots.size ≤ UInt32.size)
    (found : arena.get? handle = some clause) (removed : arena.remove handle = some arenaAfter)
    (lists : ∀ literal, after.list? literal = index.list? literal ∨
      after.list? literal = (index.list? literal).map fun handles => Bag.erase handles handle) :
    Listed after arenaAfter := by
  obtain ⟨slots, epoch, _⟩ := Arena.slots_remove found removed
  exact listed.of_erasure space found slots epoch lists nofun

/-- A removed clause leaves the lists of its literals. -/
theorem remove (listed : Listed index arena) (space : arena.slots.size ≤ UInt32.size)
    (found : arena.get? handle = some clause)
    (unlisted : index.remove handle clause.literals = some after)
    (removed : arena.remove handle = some arenaAfter) : Listed after arenaAfter := by
  refine listed.kill space found removed fun literal => ?_
  rw [Occurrences.list?_remove (Literal.nodup_of_pairwise_lt clause.sorted) unlisted]
  split
  · exact .inr rfl
  · exact .inl rfl

/-- A clause that is removed lazily stays in the lists. -/
theorem removeLazily (listed : Listed index arena) (space : arena.slots.size ≤ UInt32.size)
    (found : arena.get? handle = some clause)
    (unlisted : index.removeLazily clause.literals = some after)
    (removed : arena.remove handle = some arenaAfter) : Listed after arenaAfter :=
  listed.kill space found removed fun literal => .inl (Occurrences.list?_removeLazily unlisted literal)

/-- A clause that lost a literal leaves the list of that literal. -/
theorem strengthen (listed : Listed index arena) {length : Nat}
    (space : arena.slots.size ≤ UInt32.size) (found : arena.get? handle = some clause)
    (live : clause.isDead = false) (inside : literal ∈ clause.literals)
    (changed : arena.strengthen handle literal = some (length, arenaAfter))
    (unlisted : index.removeFrom handle literal = some after) : Listed after arenaAfter := by
  obtain ⟨shorter, shorterLiterals, _, _, slots, epoch, _⟩ :=
    Arena.slots_strengthen found inside changed
  have lists := Occurrences.list?_removeFrom unlisted
  have distinct := Literal.nodup_of_pairwise_lt clause.sorted
  obtain ⟨current, inSlot⟩ := Arena.get?_eq_some.1 found
  refine listed.of_erasure space found slots epoch (fun other => ?_) fun _ other => ?_
  · rw [lists]
    split
    · exact .inr rfl
    · exact .inl rfl
  · rw [shorterLiterals, distinct.mem_erase_iff, lists]
    have alive : arena.live? handle = some clause := Arena.live?_eq_some.2 ⟨found, live⟩
    split
    next same =>
      subst same
      refine ⟨fun ⟨different, _⟩ => absurd rfl different, ?_⟩
      rintro ⟨handles, list, inList⟩
      obtain ⟨old, oldList, rfl⟩ := Option.map_eq_some_iff.1 list
      exact absurd inList (listed.erased_handle oldList handle).2.1
    next different =>
      constructor
      · rintro ⟨_, member⟩
        obtain ⟨handles, list, inList⟩ := listed.complete _ clause inSlot live other member
        exact ⟨handles, list, by rwa [Arena.handleAt_index current] at inList⟩
      · rintro ⟨handles, list, inList⟩
        exact ⟨different, listed.sound other handles list handle inList clause alive⟩

/-! ## Cleaning -/

/-- A cleaned list has the handles of the live clauses with the literal. -/
theorem mem_cleanEntry {entry : Occurrence} :
    handle ∈ (Occurrences.cleanEntry arena literal entry).handles.toList ↔
      handle ∈ entry.handles.toList ∧ arena.holds handle literal = true := by
  simp [Occurrences.cleanEntry, mem_dropRepeats, mem_sortBy]

theorem nodup_cleanEntry {entry : Occurrence} (nodup : entry.handles.toList.Nodup) :
    (Occurrences.cleanEntry arena literal entry).handles.toList.Nodup := by
  have sorted : (sortBy Handle.le
      (entry.handles.toList.filter (arena.holds · literal))).Nodup :=
    (sortBy_perm _).symm.nodup (nodup.filter _)
  exact (dropRepeats_sublist _).nodup sorted

/-- Cleaning one list leaves the index as good as it was. -/
theorem cleanOne (listed : Listed index arena) (space : arena.slots.size ≤ UInt32.size)
    (literal : Literal)
    (changed : after.entries =
      index.entries.modify literal.index (Occurrences.cleanEntry arena literal)) :
    Listed after arena := by
  -- Every list is an old one or a cleaned one.
  have lists : ∀ other, after.list? other = if other = literal then
      (index.entry? other).map fun entry => (Occurrences.cleanEntry arena other entry).handles
      else index.list? other := by
    intro other
    simp only [Occurrences.list?_eq, changed, Array.getElem?_modify, Occurrences.entry?]
    by_cases same : other = literal
    · subst same
      simp [Function.comp_def]
    · have different : literal.index ≠ other.index := fun equal =>
        same (Literal.index_inj.1 equal).symm
      simp [same, different]
  have cases : ∀ other new, after.list? other = some new → ∃ old,
      index.list? other = some old ∧ new.toList.Nodup ∧ new.toList ⊆ old.toList := by
    intro other new list
    rw [lists] at list
    split at list
    · obtain ⟨entry, found, rfl⟩ := Option.map_eq_some_iff.1 list
      have oldList : index.list? other = some entry.handles := by
        simp [Occurrences.list?, found]
      refine ⟨entry.handles, oldList, nodup_cleanEntry (listed.nodup other _ oldList), ?_⟩
      exact fun handle member => (mem_cleanEntry.1 member).1
    · exact ⟨new, list, listed.nodup other new list, List.Subset.refl _⟩
  refine ⟨?_, ?_, ?_, ?_⟩
  · intro slot clause found live other member
    obtain ⟨handles, list, inList⟩ := listed.complete slot clause found live other member
    rw [lists]
    split
    · obtain ⟨entry, foundEntry, rfl⟩ := Option.map_eq_some_iff.1 list
      refine ⟨(Occurrences.cleanEntry arena other entry).handles, by simp [foundEntry], ?_⟩
      exact mem_cleanEntry.2 ⟨inList,
        Arena.holds_iff.2 ⟨clause, Arena.live?_handleAt space found live, member⟩⟩
    · exact ⟨handles, list, inList⟩
  · intro other new list
    exact (cases other new list).choose_spec.2.1
  · intro other new list handle member
    obtain ⟨old, oldList, _, part⟩ := cases other new list
    exact listed.current other old oldList handle (part member)
  · intro other new list handle member
    obtain ⟨old, oldList, _, part⟩ := cases other new list
    exact listed.sound other old oldList handle (part member)

/-- Cleaning leaves the lists right. -/
theorem clean (listed : Listed index arena) (space : arena.slots.size ≤ UInt32.size) :
    Listed (index.clean arena) arena := by
  have folded : ∀ (dirty : List Literal) (entries : Array Occurrence) (unlisted : Unlisted entries)
      (after : Occurrences),
      Listed { index with entries := entries, unlisted := unlisted } arena →
      after.entries = dirty.foldl (fun entries literal =>
        entries.modify literal.index (Occurrences.cleanEntry arena literal)) entries →
      Listed after arena := by
    intro dirty
    induction dirty with
    | nil =>
      exact fun entries unlisted after right same => right.of_list?_eq fun literal => by
        rw [Occurrences.list?_eq, same]
        rfl
    | cons literal rest ih =>
      intro entries unlisted after right same
      exact ih _ (unlisted.modify literal _) after (right.cleanOne space literal rfl) same
  exact folded index.dirty.toList index.entries index.unlisted _ listed
    (Array.foldl_toList _).symm

end Listed

end CnfSimplifier
