import Mathlib.Algebra.Order.Ring.Int
import CnfSimplifier.Proofs.Compaction

/-!
# Counting clauses

The arena counts its live clauses, the binary and the redundant ones among them,
and their literals. Each counter is a total over the live clauses, and a change of
one slot changes a total by what the slot adds.

The index counts the live clauses of every literal. A clean list holds handles of
live clauses only; a dirty one is on the list of lists to be cleaned. Lists may be
dirty while clauses are removed lazily, and cleaning leaves none.
-/
namespace CnfSimplifier

/-! ## Totals over the live clauses -/

/-- What a slot adds to a total: the weight of the clause if it is live. -/
def Clause.weighed (weight : Clause → Int) (clause : Clause) : Int :=
  if clause.isDead then 0 else weight clause

theorem Clause.weighed_of_live {weight : Clause → Int} {clause : Clause}
    (live : clause.isDead = false) : clause.weighed weight = weight clause := by
  simp [weighed, live]

theorem Clause.weighed_of_dead {weight : Clause → Int} {clause : Clause}
    (dead : clause.isDead = true) : clause.weighed weight = 0 := by
  simp [weighed, dead]

namespace Arena

variable {arena after : Arena} {handle : Handle} {clause : Clause} {slot : Nat}
  {weight : Clause → Int}

/-- The sum of the weights of the live clauses. -/
def total (arena : Arena) (weight : Clause → Int) : Int :=
  (arena.slots.toList.map (Clause.weighed weight)).sum

/-- A total goes over the live clauses. -/
theorem total_eq_liveClauses (arena : Arena) (weight : Clause → Int) :
    arena.total weight = (arena.liveClauses.map weight).sum := by
  unfold total liveClauses
  induction arena.slots.toList with
  | nil => rfl
  | cons first rest ih =>
    rw [List.map_cons, List.sum_cons, ih]
    cases dead : first.isDead with
    | true => simp [Clause.weighed_of_dead dead, dead]
    | false => simp [Clause.weighed_of_live dead, dead]

/-- A change of one slot exchanges what the slot adds. -/
theorem total_setSlot {old new : Clause} (found : arena.slots[slot]? = some old)
    (changed : after.slots = arena.slots.setIfInBounds slot new) :
    after.total weight = arena.total weight - old.weighed weight + new.weighed weight := by
  have exchanged : ∀ (slots : List Clause) (slot : Nat), slots[slot]? = some old →
      ((slots.set slot new).map (Clause.weighed weight)).sum =
        (slots.map (Clause.weighed weight)).sum - old.weighed weight + new.weighed weight := by
    intro slots
    induction slots with
    | nil => intro slot found; simp at found
    | cons first rest ih =>
      intro slot found
      cases slot with
      | zero =>
        simp only [List.getElem?_cons_zero, Option.some.injEq] at found
        subst found
        simp only [List.set_cons_zero, List.map_cons, List.sum_cons]
        omega
      | succ slot =>
        simp only [List.getElem?_cons_succ] at found
        simp only [List.set_cons_succ, List.map_cons, List.sum_cons, ih slot found]
        omega
  unfold total
  rw [changed, Array.toList_setIfInBounds]
  exact exchanged _ slot (by rw [Array.getElem?_toList, found])

theorem total_push (changed : after.slots = arena.slots.push clause) :
    after.total weight = arena.total weight + clause.weighed weight := by
  unfold total
  rw [changed, Array.toList_push, List.map_append, List.sum_append, List.map_singleton,
    List.sum_singleton]

/-- The counters of an arena are right. -/
structure Counted (arena : Arena) : Prop where
  active : arena.active = arena.total fun _ => 1
  literals : arena.literals = arena.total fun clause => clause.size
  binary : arena.binary = arena.total fun clause => if clause.size = 2 then 1 else 0
  redundant : arena.redundant = arena.total fun clause => if clause.isRedundant then 1 else 0

/-- The contents are as many as the live clauses. -/
theorem card_contents (arena : Arena) : (arena.contents.card : Int) = arena.total fun _ => 1 := by
  rw [total_eq_liveClauses, contents_eq_liveClauses]
  simp

theorem Counted.card (counted : arena.Counted) : arena.active = arena.contents.card :=
  counted.active.trans arena.card_contents.symm

/-- An inserted clause is counted. -/
theorem Counted.insert (counted : arena.Counted) (literals : List Literal) (redundant : Bool) :
    (arena.insert literals redundant).2.Counted := by
  have added : ∀ weight : Clause → Int, (arena.insert literals redundant).2.total weight =
      arena.total weight + weight (Clause.ofLiterals literals redundant) := by
    intro weight
    rw [total_push rfl, Clause.weighed_of_live rfl]
  constructor
  · rw [added, ← counted.active]
    rfl
  · rw [added, ← counted.literals]
    rfl
  · rw [added, ← counted.binary]
    rfl
  · rw [added, ← counted.redundant]
    rfl

/-- A live clause that is marked dead is not counted any more. -/
theorem Counted.remove (counted : arena.Counted) (live : arena.live? handle = some clause)
    (removed : arena.remove handle = some after) : after.Counted := by
  obtain ⟨found, alive⟩ := live?_eq_some.1 live
  obtain ⟨_, inSlot⟩ := get?_eq_some.1 found
  unfold Arena.remove at removed
  rw [found] at removed
  simp only [Option.some.injEq] at removed
  subst removed
  have dropped : ∀ {after : Arena} (weight : Clause → Int), after.slots =
      arena.slots.setIfInBounds handle.index
        { clause with flags := { clause.flags with dead := true } } →
      after.total weight = arena.total weight - weight clause := by
    intro after weight slots
    rw [total_setSlot inSlot slots, Clause.weighed_of_live alive, Clause.weighed_of_dead rfl,
      add_zero]
  constructor
  · rw [dropped _ rfl, ← counted.active]
  · rw [dropped _ rfl, ← counted.literals]
  · rw [dropped _ rfl, ← counted.binary]
  · rw [dropped _ rfl, ← counted.redundant]

/-- A live clause that loses a literal is counted with the others. -/
theorem Counted.strengthen (counted : arena.Counted) {literal : Literal} {length : Nat}
    (live : arena.live? handle = some clause) (inside : literal ∈ clause.literals)
    (long : 3 ≤ clause.literals.length)
    (changed : arena.strengthen handle literal = some (length, after)) : after.Counted := by
  obtain ⟨found, alive⟩ := live?_eq_some.1 live
  obtain ⟨_, inSlot⟩ := get?_eq_some.1 found
  have contained : clause.contains literal = true := by simpa [Clause.contains] using inside
  unfold Arena.strengthen at changed
  rw [found] at changed
  simp only [contained, if_true, Option.some.injEq, Prod.mk.injEq] at changed
  obtain ⟨_, rfl⟩ := changed
  let shorter : Clause := { clause.erase literal with
    flags := { clause.flags with subsume := true, strengthen := true } }
  have size : shorter.size = clause.size - 1 := List.length_erase_of_mem inside
  have longSize : 3 ≤ clause.size := long
  have aliveShorter : shorter.isDead = false := alive
  have exchanged : ∀ {after : Arena} (weight : Clause → Int), after.slots =
      arena.slots.setIfInBounds handle.index shorter →
      after.total weight = arena.total weight - weight clause + weight shorter := by
    intro after weight slots
    rw [total_setSlot inSlot slots, Clause.weighed_of_live alive,
      Clause.weighed_of_live aliveShorter]
  constructor
  · rw [exchanged _ rfl, ← counted.active]
    exact (Int.sub_add_cancel _ _).symm
  · rw [exchanged _ rfl, ← counted.literals, size]
    change arena.literals - 1 = _
    omega
  · rw [exchanged _ rfl, ← counted.binary, if_neg (by omega : ¬ clause.size = 2)]
    change arena.binary + (if shorter.size = 2 then 1 else 0) = _
    omega
  · rw [exchanged _ rfl, ← counted.redundant]
    change arena.redundant = arena.redundant - _ + if clause.isRedundant then 1 else 0
    omega

/-- Marks that are not counted. -/
theorem Counted.mark (counted : arena.Counted) {change : ClauseFlags → ClauseFlags}
    (dead : ∀ flags, (change flags).dead = flags.dead)
    (redundant : ∀ flags, (change flags).redundant = flags.redundant)
    (marked : arena.mark handle change = some after) : after.Counted := by
  unfold Arena.mark at marked
  split at marked
  · cases marked
  next clause found =>
    obtain ⟨_, inSlot⟩ := get?_eq_some.1 found
    simp only [Option.some.injEq] at marked
    subst marked
    let new : Clause := { clause with flags := change clause.flags }
    have deadNew : new.isDead = clause.isDead := dead clause.flags
    have redundantNew : new.isRedundant = clause.isRedundant := redundant clause.flags
    have same : ∀ weight : Clause → Int, weight new = weight clause →
        (arena.setSlot handle.index new).total weight = arena.total weight := by
      intro weight equal
      rw [total_setSlot inSlot rfl]
      unfold Clause.weighed
      rw [deadNew, equal]
      omega
    constructor
    · rw [same _ rfl, ← counted.active]
      rfl
    · rw [same _ rfl, ← counted.literals]
      rfl
    · rw [same _ rfl, ← counted.binary]
      rfl
    · rw [same _ (by rw [redundantNew]), ← counted.redundant]
      rfl

/-- A live clause that becomes irredundant is one redundant clause less. -/
theorem Counted.makeIrredundant (counted : arena.Counted)
    (live : arena.live? handle = some clause)
    (changed : arena.makeIrredundant handle = some after) : after.Counted := by
  obtain ⟨found, alive⟩ := live?_eq_some.1 live
  obtain ⟨_, inSlot⟩ := get?_eq_some.1 found
  unfold Arena.makeIrredundant at changed
  rw [inSlot] at changed
  dsimp only at changed
  split at changed
  next redundant =>
    simp only [Option.some.injEq] at changed
    subst changed
    let new : Clause := { clause with flags := { clause.flags with redundant := false } }
    have aliveNew : new.isDead = false := alive
    have exchanged : ∀ {after : Arena} (weight : Clause → Int), after.slots =
        arena.slots.setIfInBounds handle.index new →
        after.total weight = arena.total weight - weight clause + weight new := by
      intro after weight slots
      rw [total_setSlot inSlot slots, Clause.weighed_of_live alive,
        Clause.weighed_of_live aliveNew]
    constructor
    · rw [exchanged _ rfl, ← counted.active]
      exact (Int.sub_add_cancel _ _).symm
    · rw [exchanged _ rfl, ← counted.literals]
      change arena.literals = arena.literals - clause.size + clause.size
      omega
    · rw [exchanged _ rfl, ← counted.binary]
      change arena.binary = arena.binary - _ + if clause.size = 2 then 1 else 0
      omega
    · rw [exchanged _ rfl, ← counted.redundant, if_pos redundant]
      change arena.redundant - 1 = arena.redundant - 1 + 0
      omega
  next =>
    simp only [Option.some.injEq] at changed
    exact changed ▸ counted

/-- A compaction drops dead clauses, which are not counted. -/
theorem Counted.compact (counted : arena.Counted) : arena.compact.2.Counted := by
  have same : ∀ weight : Clause → Int, arena.compact.2.total weight = arena.total weight := by
    intro weight
    rw [total_eq_liveClauses, total_eq_liveClauses]
    simp [liveClauses, Arena.compact, List.filter_filter]
  constructor
  · rw [same, ← counted.active]
    rfl
  · rw [same, ← counted.literals]
    rfl
  · rw [same, ← counted.binary]
    rfl
  · rw [same, ← counted.redundant]
    rfl

end Arena

/-! ## Entries of the index -/

namespace Occurrences

variable {index after : Occurrences} {literal : Literal} {handle : Handle}

/-- Marking a list dirty puts it on the list of dirty ones. -/
theorem entry?_markDirty (marked : index.markDirty literal = some after)
    (known : ∀ entry, index.entry? literal = some entry → entry.dirty = true →
      literal ∈ index.dirty.toList) :
    (∀ other, after.entry? other = if other = literal then
      (index.entry? other).map fun entry => { entry with dirty := true }
      else index.entry? other) ∧ index.dirty.toList ⊆ after.dirty.toList ∧
      literal ∈ after.dirty.toList ∧ after.entries.size = index.entries.size := by
  simp only [markDirty, Option.bind_eq_bind, Option.bind_eq_some_iff] at marked
  obtain ⟨entry, found, marked⟩ := marked
  split at marked
  next already =>
    simp only [Option.pure_def, Option.some.injEq] at marked
    subst marked
    refine ⟨fun other => ?_, List.Subset.refl _, known entry found already, rfl⟩
    split
    next same =>
      subst same
      rw [found, Option.map_some]
      exact congrArg some (by rw [← already])
    next => rfl
  next =>
    simp only [Option.pure_def, Option.bind_eq_some_iff, Option.some.injEq] at marked
    obtain ⟨middle, changed, rfl⟩ := marked
    obtain ⟨entries, dirty, size⟩ := entry?_modify? changed
    refine ⟨entries, ?_, ?_, size⟩
    · dsimp only
      rw [Array.toList_push, dirty]
      exact List.subset_append_left _ _
    · dsimp only
      rw [Array.toList_push]
      exact List.mem_append_right _ (List.mem_singleton_self literal)

/-- A clause that is taken out lazily leaves dirty lists with lower counts. -/
theorem entry?_removeLazily {literals : List Literal} (distinct : literals.Nodup)
    (removed : index.removeLazily literals = some after)
    (known : ∀ literal entry, index.entry? literal = some entry → entry.dirty = true →
      literal ∈ index.dirty.toList) :
    (∀ other, after.entry? other = if other ∈ literals then
      (index.entry? other).map fun entry => { entry with count := entry.count - 1, dirty := true }
      else index.entry? other) ∧ index.dirty.toList ⊆ after.dirty.toList ∧
      literals ⊆ after.dirty.toList ∧ after.entries.size = index.entries.size := by
  induction literals generalizing index with
  | nil =>
    cases removed
    simp
  | cons literal rest ih =>
    simp only [removeLazily, Option.bind_eq_bind, Option.bind_eq_some_iff] at removed
    obtain ⟨counted, changed, marked, dirtied, removedRest⟩ := removed
    obtain ⟨absent, distinctRest⟩ := List.nodup_cons.1 distinct
    obtain ⟨entriesFirst, dirtyFirst, sizeFirst⟩ := entry?_modify? changed
    have knownFirst : ∀ literal entry, counted.entry? literal = some entry → entry.dirty = true →
        literal ∈ counted.dirty.toList := by
      intro other entry found isDirty
      rw [dirtyFirst]
      rw [entriesFirst] at found
      split at found
      · obtain ⟨old, foundOld, rfl⟩ := Option.map_eq_some_iff.1 found
        exact known other old foundOld isDirty
      · exact known other entry found isDirty
    obtain ⟨entriesMarked, moreDirty, nowDirty, sizeMarked⟩ :=
      entry?_markDirty dirtied (knownFirst literal)
    have knownMarked : ∀ literal entry, marked.entry? literal = some entry → entry.dirty = true →
        literal ∈ marked.dirty.toList := by
      intro other entry found isDirty
      rw [entriesMarked] at found
      split at found
      next same => exact same ▸ nowDirty
      next => exact moreDirty (knownFirst other entry found isDirty)
    obtain ⟨entries, dirty, listed, size⟩ := ih distinctRest removedRest knownMarked
    refine ⟨fun other => ?_, fun other member => dirty (moreDirty (dirtyFirst ▸ member)), ?_,
      size.trans (sizeMarked.trans sizeFirst)⟩
    · rw [entries, entriesMarked, entriesFirst]
      by_cases same : other = literal
      · subst same
        simp [absent, Function.comp_def]
      · simp [same]
    · exact List.cons_subset.2 ⟨dirty nowDirty, listed⟩

/-- Cleaning leaves the room. -/
theorem size_clean (index : Occurrences) (arena : Arena) :
    (index.clean arena).entries.size = index.entries.size := by
  have folded : ∀ (dirty : List Literal) (entries : Array Occurrence),
      (dirty.foldl (fun entries literal =>
        entries.modify literal.index (cleanEntry arena literal)) entries).size = entries.size := by
    intro dirty
    induction dirty with
    | nil => exact fun _ => rfl
    | cons literal rest ih =>
      intro entries
      rw [List.foldl_cons, ih, Array.size_modify]
  unfold clean
  dsimp only
  rw [← Array.foldl_toList]
  exact folded _ _

/-- Every entry that is carried over was there before. -/
theorem getElem?_of_carryEntries {relocation : Relocation} {entries carried : List Occurrence}
    (carries : carryEntries relocation entries = some carried) {place : Nat} {entry : Occurrence}
    (found : carried[place]? = some entry) : ∃ before, entries[place]? = some before ∧
      entry.count = before.count ∧ entry.dirty = before.dirty ∧
      relocation.carry before.handles.toList = some entry.handles.toList := by
  induction entries generalizing carried place with
  | nil =>
    cases carries
    cases found
  | cons first rest ih =>
    simp only [carryEntries, Option.bind_eq_bind, Option.bind_eq_some_iff, Option.pure_def,
      Option.some.injEq] at carries
    obtain ⟨handles, carriesFirst, later, carriesRest, rfl⟩ := carries
    cases place with
    | zero =>
      obtain rfl := Option.some.inj found
      rw [Relocation.carryArray_eq] at carriesFirst
      obtain ⟨list, carriesList, rfl⟩ := Option.map_eq_some_iff.1 carriesFirst
      exact ⟨first, rfl, rfl, rfl, carriesList⟩
    | succ place => exact ih carriesRest found

/-- There are as many lists afterwards. -/
theorem length_carryEntries {relocation : Relocation} {entries carried : List Occurrence}
    (carries : carryEntries relocation entries = some carried) :
    carried.length = entries.length := by
  induction entries generalizing carried with
  | nil =>
    cases carries
    rfl
  | cons first rest ih =>
    simp only [carryEntries, Option.bind_eq_bind, Option.bind_eq_some_iff, Option.pure_def,
      Option.some.injEq] at carries
    obtain ⟨_, _, later, carriesRest, rfl⟩ := carries
    rw [List.length_cons, List.length_cons, ih carriesRest]

theorem size_relocate {relocation : Relocation}
    (relocated : index.relocate relocation = some after) :
    after.entries.size = index.entries.size := by
  obtain ⟨carried, carries, rfl⟩ := relocate_eq_some.1 relocated
  exact (length_carryEntries carries).trans Array.length_toList

theorem size_addVar (index : Occurrences) :
    index.addVar.entries.size = index.entries.size + 2 := by
  simp [addVar]

end Occurrences

/-! ## Counts of the index -/

/-- The counts and marks of an index are right for an arena. -/
structure Tallied (index : Occurrences) (arena : Arena) : Prop where
  count : ∀ literal entry, index.entry? literal = some entry →
    entry.count = arena.contents.countP (literal ∈ ·)
  /-- Clean lists hold live clauses only. -/
  clean : ∀ literal entry, index.entry? literal = some entry → entry.dirty = false →
    ∀ handle ∈ entry.handles.toList, ∃ clause, arena.live? handle = some clause
  /-- Dirty lists will be cleaned. -/
  known : ∀ literal entry, index.entry? literal = some entry → entry.dirty = true →
    literal ∈ index.dirty.toList

namespace Tallied

variable {index after : Occurrences} {arena arenaAfter : Arena} {handle : Handle} {clause : Clause}

/-- The same clauses under other marks. -/
theorem of_sameClauses (tallied : Tallied index arena) (same : arena.SameClauses arenaAfter) :
    Tallied index arenaAfter := by
  refine ⟨?_, fun literal entry found isClean handle member => ?_, tallied.known⟩
  · rw [same.contents]
    exact tallied.count
  · obtain ⟨clause, live⟩ := tallied.clean literal entry found isClean handle member
    obtain ⟨copy, liveAfter, _⟩ := same.live?_back live
    exact ⟨copy, liveAfter⟩

/-- A new variable is in no clause. -/
theorem addVar (tallied : Tallied index arena) (listed : Listed index arena) :
    Tallied index.addVar arena := by
  have cases : ∀ literal entry, index.addVar.entry? literal = some entry →
      index.entry? literal = some entry ∨ (index.entry? literal = none ∧ entry = {}) := by
    intro literal entry found
    simp only [Occurrences.entry?, Occurrences.addVar, Array.getElem?_push, Array.size_push] at found
    by_cases inside : literal.index < index.entries.size
    · rw [if_neg (by omega), if_neg (by omega)] at found
      exact .inl found
    · have outside : index.entries[literal.index]? = none := Array.getElem?_eq_none (by omega)
      refine .inr ⟨outside, ?_⟩
      rw [outside] at found
      split at found
      · exact (Option.some.inj found).symm
      · split at found
        · exact (Option.some.inj found).symm
        · cases found
  refine ⟨fun literal entry found => ?_, fun literal entry found isClean handle member => ?_,
    fun literal entry found isDirty => ?_⟩
  · rcases cases literal entry found with old | ⟨absent, rfl⟩
    · exact tallied.count literal entry old
    · -- A clause with the literal would be listed under it.
      have none : ∀ literals ∈ arena.contents, literal ∉ literals := by
        intro literals stored member
        obtain ⟨slot, clause, inSlot, alive, rfl⟩ := Arena.mem_contents.1 stored
        obtain ⟨handles, list, _⟩ := listed.complete slot clause inSlot alive literal member
        rw [Occurrences.list?, absent] at list
        cases list
      rw [Multiset.countP_eq_zero.2 none]
      rfl
  · rcases cases literal entry found with old | ⟨_, rfl⟩
    · exact tallied.clean literal entry old isClean handle member
    · cases member
  · rcases cases literal entry found with old | ⟨_, rfl⟩
    · exact tallied.known literal entry old isDirty
    · cases isDirty

/-- Lists that are changed but not dirtied are listed as before. -/
theorem known_of_entries {condition : Literal → Prop} [DecidablePred condition]
    {change : Occurrence → Occurrence} (tallied : Tallied index arena)
    (entries : ∀ literal, after.entry? literal = if condition literal then
      (index.entry? literal).map change else index.entry? literal)
    (dirty : after.dirty = index.dirty) (keeps : ∀ entry, (change entry).dirty = entry.dirty)
    (literal : Literal) (entry : Occurrence) (found : after.entry? literal = some entry)
    (isDirty : entry.dirty = true) : literal ∈ after.dirty.toList := by
  rw [dirty]
  rw [entries] at found
  split at found
  · obtain ⟨old, foundOld, rfl⟩ := Option.map_eq_some_iff.1 found
    exact tallied.known literal old foundOld (keeps old ▸ isDirty)
  · exact tallied.known literal entry found isDirty

/-- A new clause is counted under its literals. -/
theorem insert (tallied : Tallied index arena) {literals : List Literal} {redundant : Bool}
    (space : arena.slots.size < UInt32.size)
    (added : index.add (arena.handleAt arena.slots.size)
      (Clause.ofLiterals literals redundant).literals = some after) :
    Tallied after (arena.insert literals redundant).2 := by
  let new := Clause.ofLiterals literals redundant
  obtain ⟨entries, dirty, _⟩ :=
    Occurrences.entry?_add (Literal.nodup_of_pairwise_lt new.sorted) added
  have slots : (arena.insert literals redundant).2.slots = arena.slots.push new := rfl
  have contents : (arena.insert literals redundant).2.contents =
      new.literals ::ₘ arena.contents := by
    unfold Arena.contents
    rw [slots, Array.toList_push, List.map_append, List.sum_append, List.map_singleton,
      List.sum_singleton, Clause.content_of_live rfl, add_comm, Multiset.singleton_add]
  have kept : ∀ handle clause, arena.live? handle = some clause →
      (arena.insert literals redundant).2.live? handle = some clause := by
    intro handle clause live
    obtain ⟨found, alive⟩ := Arena.live?_eq_some.1 live
    obtain ⟨current, inSlot⟩ := Arena.get?_eq_some.1 found
    have inside : handle.index < arena.slots.size := (Array.getElem?_eq_some_iff.1 inSlot).1
    refine Arena.live?_eq_some.2 ⟨Arena.get?_eq_some.2 ⟨current, ?_⟩, alive⟩
    rw [slots, Array.getElem?_push, if_neg (by omega)]
    exact inSlot
  have fresh : (arena.insert literals redundant).2.live? (arena.handleAt arena.slots.size) =
      some new := by
    refine Arena.live?_eq_some.2 ⟨Arena.get?_eq_some.2 ⟨rfl, ?_⟩, rfl⟩
    rw [Arena.index_handleAt space, slots, Array.getElem?_push_size]
  refine ⟨fun literal entry found => ?_, fun literal entry found isClean handle member => ?_,
    tallied.known_of_entries entries dirty fun _ => rfl⟩
  · rw [entries] at found
    rw [contents, Multiset.countP_cons]
    split at found
    next inside =>
      obtain ⟨old, foundOld, rfl⟩ := Option.map_eq_some_iff.1 found
      rw [if_pos inside]
      dsimp only
      rw [tallied.count literal old foundOld]
      rfl
    next outside =>
      rw [if_neg outside]
      exact tallied.count literal entry found
  · rw [entries] at found
    split at found
    · obtain ⟨old, foundOld, rfl⟩ := Option.map_eq_some_iff.1 found
      dsimp only at isClean member
      rw [Array.toList_push, List.mem_append, List.mem_singleton] at member
      rcases member with earlier | rfl
      · obtain ⟨clause, live⟩ := tallied.clean literal old foundOld isClean handle earlier
        exact ⟨clause, kept handle clause live⟩
      · exact ⟨new, fresh⟩
    · obtain ⟨clause, live⟩ := tallied.clean literal entry found isClean handle member
      exact ⟨clause, kept handle clause live⟩

/-- What a removal leaves alive, and what it takes from the contents. -/
theorem removed_spec (live : arena.live? handle = some clause)
    (removed : arena.remove handle = some arenaAfter) :
    (∀ other found, other ≠ handle → arena.live? other = some found →
      arenaAfter.live? other = some found) ∧
      arena.contents = clause.literals ::ₘ arenaAfter.contents := by
  obtain ⟨found, alive⟩ := Arena.live?_eq_some.1 live
  obtain ⟨_, inSlot⟩ := Arena.get?_eq_some.1 found
  obtain ⟨slots, epoch, _⟩ := Arena.slots_remove found removed
  refine ⟨fun other clause different liveOther => ?_, ?_⟩
  · obtain ⟨foundOther, aliveOther⟩ := Arena.live?_eq_some.1 liveOther
    rw [Arena.live?_eq_some, Arena.get?_of_slots found slots epoch different]
    exact ⟨foundOther, aliveOther⟩
  · have balance := Arena.contents_setSlot inSlot slots
    rw [Clause.content_of_live alive, Clause.content_of_dead rfl, add_zero] at balance
    rw [← balance, add_comm, Multiset.singleton_add]

/-- The count of a literal after a clause went. -/
theorem countP_removed {literal : Literal} {before rest : Multiset (List Literal)}
    {literals : List Literal} (split : before = literals ::ₘ rest) :
    (rest.countP (literal ∈ ·) : Int) =
      before.countP (literal ∈ ·) - if literal ∈ literals then 1 else 0 := by
  rw [split, Multiset.countP_cons]
  split <;> push_cast <;> omega

/-- A clause goes, and its literals are counted once less. Where a list stays clean the handle
of the clause is taken off it. -/
theorem of_removed {change : Occurrence → Occurrence} (tallied : Tallied index arena)
    (listed : Listed index arena) (live : arena.live? handle = some clause)
    (removed : arena.remove handle = some arenaAfter)
    (entries : ∀ literal, after.entry? literal = if literal ∈ clause.literals then
      (index.entry? literal).map change else index.entry? literal)
    (count : ∀ entry, (change entry).count = entry.count - 1)
    (clean : ∀ literal old, index.entry? literal = some old → (change old).dirty = false →
      old.dirty = false ∧ handle ∉ (change old).handles.toList ∧
        (change old).handles.toList ⊆ old.handles.toList)
    (known : ∀ literal entry, after.entry? literal = some entry → entry.dirty = true →
      literal ∈ after.dirty.toList) : Tallied after arenaAfter := by
  obtain ⟨others, contents⟩ := removed_spec live removed
  refine ⟨fun literal entry found => ?_, fun literal entry found isClean other member => ?_, known⟩
  · rw [entries] at found
    rw [countP_removed contents]
    split at found
    next inside =>
      obtain ⟨old, foundOld, rfl⟩ := Option.map_eq_some_iff.1 found
      rw [if_pos inside, count, tallied.count literal old foundOld]
    next outside =>
      rw [if_neg outside, sub_zero]
      exact tallied.count literal entry found
  · rw [entries] at found
    split at found
    next inside =>
      obtain ⟨old, foundOld, rfl⟩ := Option.map_eq_some_iff.1 found
      obtain ⟨wasClean, gone, fewer⟩ := clean literal old foundOld isClean
      have different : other ≠ handle := fun equal => gone (equal ▸ member)
      obtain ⟨kept, liveKept⟩ := tallied.clean literal old foundOld wasClean other (fewer member)
      exact ⟨kept, others other kept different liveKept⟩
    next outside =>
      obtain ⟨kept, liveKept⟩ := tallied.clean literal entry found isClean other member
      refine ⟨kept, others other kept (fun equal => outside ?_) liveKept⟩
      have list : index.list? literal = some entry.handles := by simp [Occurrences.list?, found]
      subst equal
      exact listed.sound literal entry.handles list other member clause live

/-- A removed clause is counted no more. -/
theorem remove (tallied : Tallied index arena) (listed : Listed index arena)
    (live : arena.live? handle = some clause)
    (unlisted : index.remove handle clause.literals = some after)
    (removed : arena.remove handle = some arenaAfter) : Tallied after arenaAfter := by
  obtain ⟨entries, dirty, _⟩ :=
    Occurrences.entry?_remove (Literal.nodup_of_pairwise_lt clause.sorted) unlisted
  refine tallied.of_removed listed live removed entries (fun _ => rfl)
    (fun literal old found isClean => ⟨isClean, ?_, fun other member => ?_⟩)
    (tallied.known_of_entries entries dirty fun _ => rfl)
  · have list : index.list? literal = some old.handles := by simp [Occurrences.list?, found]
    exact (listed.erased_handle list handle).2.1
  · exact List.mem_of_mem_erase ((Bag.erase_perm old.handles handle).mem_iff.1 member)

/-- A clause that is removed lazily leaves dirty lists. -/
theorem removeLazily (tallied : Tallied index arena) (listed : Listed index arena)
    (live : arena.live? handle = some clause)
    (unlisted : index.removeLazily clause.literals = some after)
    (removed : arena.remove handle = some arenaAfter) : Tallied after arenaAfter := by
  obtain ⟨entries, dirty, nowDirty, _⟩ := Occurrences.entry?_removeLazily
    (Literal.nodup_of_pairwise_lt clause.sorted) unlisted tallied.known
  refine tallied.of_removed listed live removed entries (fun _ => rfl)
    (fun _ _ _ isClean => by cases isClean) fun literal entry found isDirty => ?_
  rw [entries] at found
  split at found
  next inside => exact nowDirty inside
  next => exact dirty (tallied.known literal entry found isDirty)

/-- A clause that lost a literal is counted under it no more. -/
theorem strengthen (tallied : Tallied index arena) {literal : Literal} {length : Nat}
    (live : arena.live? handle = some clause) (inside : literal ∈ clause.literals)
    (changed : arena.strengthen handle literal = some (length, arenaAfter))
    (unlisted : index.removeFrom handle literal = some after) : Tallied after arenaAfter := by
  obtain ⟨found, alive⟩ := Arena.live?_eq_some.1 live
  obtain ⟨_, inSlot⟩ := Arena.get?_eq_some.1 found
  obtain ⟨shorter, shorterLiterals, shorterDead, _, slots, epoch, _⟩ :=
    Arena.slots_strengthen found inside changed
  obtain ⟨entries, dirty, _⟩ := Occurrences.entry?_modify? unlisted
  have distinct := Literal.nodup_of_pairwise_lt clause.sorted
  have aliveShorter : shorter.isDead = false := shorterDead.trans alive
  have balance := Arena.contents_setSlot inSlot slots
  rw [Clause.content_of_live alive, Clause.content_of_live aliveShorter, shorterLiterals, add_comm,
    Multiset.singleton_add, add_comm, Multiset.singleton_add] at balance
  -- Only the count of the literal that was lost changes.
  have count : ∀ other, (arenaAfter.contents.countP (other ∈ ·) : Int) =
      arena.contents.countP (other ∈ ·) - if other = literal then 1 else 0 := by
    intro other
    have counted := congrArg (Multiset.countP (other ∈ ·)) balance
    rw [Multiset.countP_cons, Multiset.countP_cons] at counted
    by_cases same : other = literal
    · subst same
      rw [if_pos inside, if_neg distinct.not_mem_erase] at counted
      rw [if_pos rfl]
      omega
    · simp only [List.mem_erase_of_ne same] at counted
      rw [if_neg same]
      omega
  have kept : ∀ other clause, arena.live? other = some clause →
      ∃ copy, arenaAfter.live? other = some copy := by
    intro other copy liveOther
    by_cases same : other = handle
    · subst same
      exact ⟨shorter, Arena.live?_eq_some.2
        ⟨Arena.get?_self_of_slots found slots epoch, aliveShorter⟩⟩
    · refine ⟨copy, ?_⟩
      rw [Arena.live?_eq_some, Arena.get?_of_slots found slots epoch same]
      exact Arena.live?_eq_some.1 liveOther
  refine ⟨fun other entry foundEntry => ?_, fun other entry foundEntry isClean held member => ?_,
    tallied.known_of_entries entries dirty fun _ => rfl⟩
  · rw [entries] at foundEntry
    rw [count]
    split at foundEntry
    next same =>
      obtain ⟨old, foundOld, rfl⟩ := Option.map_eq_some_iff.1 foundEntry
      rw [if_pos same]
      dsimp only
      rw [tallied.count other old foundOld]
    next different =>
      rw [if_neg different, sub_zero]
      exact tallied.count other entry foundEntry
  · rw [entries] at foundEntry
    split at foundEntry
    · obtain ⟨old, foundOld, rfl⟩ := Option.map_eq_some_iff.1 foundEntry
      have inOld : held ∈ old.handles.toList :=
        List.mem_of_mem_erase ((Bag.erase_perm old.handles handle).mem_iff.1 member)
      obtain ⟨clause, liveHeld⟩ := tallied.clean other old foundOld isClean held inOld
      exact kept held clause liveHeld
    · obtain ⟨clause, liveHeld⟩ := tallied.clean other entry foundEntry isClean held member
      exact kept held clause liveHeld

end Tallied

/-! ## Cleaning -/

namespace Arena

variable {arena : Arena} {literal : Literal}

/-- The handles of the live clauses with a literal are as many as the contents say. -/
theorem length_filter_handles (space : arena.slots.size ≤ UInt32.size) :
    (arena.handles.filter (arena.holds · literal)).length =
      arena.contents.countP (literal ∈ ·) := by
  have along : ∀ (slots : List Clause) (start : Nat),
      (∀ i clause, slots[i]? = some clause → arena.slots[start + i]? = some clause) →
      (((slots.zipIdx start).filterMap fun entry =>
        if entry.1.isDead then none else some (⟨arena.epoch, UInt32.ofNat entry.2⟩ : Handle)).filter
          (arena.holds · literal)).length =
        ((slots.filter fun clause => !clause.isDead).countP fun clause =>
          decide (literal ∈ clause.literals)) := by
    intro slots
    induction slots with
    | nil => intro start _; rfl
    | cons first rest ih =>
      intro start placed
      have later := ih (start + 1) fun i clause found => by
        have := placed (i + 1) clause found
        rwa [show start + 1 + i = start + (i + 1) by omega]
      have here := placed 0 first rfl
      rw [List.zipIdx_cons]
      cases dead : first.isDead with
      | true => simp [dead, later]
      | false =>
        have live := live?_handleAt space here dead
        have holds : arena.holds ⟨arena.epoch, UInt32.ofNat start⟩ literal =
            decide (literal ∈ first.literals) := by
          rw [Bool.eq_iff_iff, holds_iff, decide_eq_true_iff]
          change (∃ clause, arena.live? (arena.handleAt start) = some clause ∧ _) ↔ _
          rw [Nat.add_zero] at live
          simp [live]
        by_cases inside : literal ∈ first.literals
        · simp [dead, holds, inside, later]
        · simp [dead, holds, inside, later]
  rw [contents_eq_liveClauses, Multiset.coe_countP, List.countP_map]
  exact along arena.slots.toList 0 fun i clause found => by
    rwa [Nat.zero_add, ← Array.getElem?_toList]

/-- The handles are those of the live clauses. -/
theorem mem_handles (space : arena.slots.size ≤ UInt32.size) {handle : Handle} :
    handle ∈ arena.handles ↔ ∃ clause, arena.live? handle = some clause := by
  unfold handles
  rw [List.mem_filterMap]
  constructor
  · rintro ⟨⟨clause, slot⟩, placed, isHandle⟩
    have found : arena.slots[slot]? = some clause := by
      rw [← Array.getElem?_toList]
      exact List.mem_zipIdx_iff_getElem?.1 placed
    dsimp only at isHandle
    split at isHandle
    · cases isHandle
    next alive =>
      cases isHandle
      exact ⟨clause, live?_handleAt space found (by simpa using alive)⟩
  · rintro ⟨clause, live⟩
    obtain ⟨found, alive⟩ := live?_eq_some.1 live
    obtain ⟨current, inSlot⟩ := get?_eq_some.1 found
    refine ⟨(clause, handle.index), ?_, ?_⟩
    · rw [List.mem_zipIdx_iff_getElem?, Array.getElem?_toList]
      exact inSlot
    · simp only [alive, Bool.false_eq_true, if_false, Option.some.injEq]
      exact handleAt_index current

/-- No handle is listed twice. -/
theorem nodup_handles (space : arena.slots.size ≤ UInt32.size) : arena.handles.Nodup := by
  have places : (arena.slots.toList.zipIdx.map Prod.snd).Pairwise (· < ·) := by
    rw [List.zipIdx_map_snd]
    exact List.pairwise_lt_range'
  have bound : ∀ placed ∈ arena.slots.toList.zipIdx, placed.2 < UInt32.size := by
    rintro ⟨clause, slot⟩ member
    have inside := List.snd_lt_of_mem_zipIdx member
    simp only [Array.length_toList] at inside
    omega
  unfold handles
  refine List.pairwise_filterMap.2 ((List.pairwise_map.1 places).imp_of_mem ?_)
  rintro ⟨first, i⟩ ⟨second, j⟩ memberFirst memberSecond below a isFirst b isSecond same
  dsimp only at below isFirst isSecond
  split at isFirst
  · cases isFirst
  split at isSecond
  · cases isSecond
  cases isFirst
  cases isSecond
  have isFirst : (UInt32.ofNat i).toNat = i := UInt32.toNat_ofNat_of_lt (bound _ memberFirst)
  have isSecond : (UInt32.ofNat j).toNat = j := UInt32.toNat_ofNat_of_lt (bound _ memberSecond)
  rw [(Handle.mk.inj same).2, isSecond] at isFirst
  omega

/-- A list without repetitions of exactly the live clauses with a literal. -/
theorem length_of_holds (space : arena.slots.size ≤ UInt32.size) {handles : List Handle}
    (nodup : handles.Nodup) (exact : ∀ handle, handle ∈ handles ↔ arena.holds handle literal = true) :
    handles.length = arena.contents.countP (literal ∈ ·) := by
  rw [← length_filter_handles space]
  refine List.Perm.length_eq ((List.perm_ext_iff_of_nodup nodup ?_).2 fun handle => ?_)
  · exact (nodup_handles space).filter _
  · rw [exact, List.mem_filter, mem_handles space]
    refine ⟨fun holds => ⟨?_, holds⟩, And.right⟩
    obtain ⟨clause, live, _⟩ := holds_iff.1 holds
    exact ⟨clause, live⟩

end Arena

namespace Tallied

variable {index after : Occurrences} {arena : Arena}

/-- One dirty list is cleaned. -/
theorem cleanOne (space : arena.slots.size ≤ UInt32.size) {literal : Literal}
    {rest : List Literal} {entries : Array Occurrence} {unlisted : Unlisted entries}
    (listed : Listed ⟨entries, (literal :: rest).toArray, unlisted⟩ arena)
    (tallied : Tallied ⟨entries, (literal :: rest).toArray, unlisted⟩ arena) :
    Tallied ⟨entries.modify literal.index (Occurrences.cleanEntry arena literal), rest.toArray,
      unlisted.modify literal _⟩ arena := by
  have cases : ∀ other entry, Occurrences.entry? ⟨entries.modify literal.index
      (Occurrences.cleanEntry arena literal), rest.toArray, unlisted.modify literal _⟩ other =
        some entry →
      (other ≠ literal ∧ entries[other.index]? = some entry) ∨ (other = literal ∧
        ∃ old, entries[literal.index]? = some old ∧
          entry = Occurrences.cleanEntry arena literal old) := by
    intro other entry found
    simp only [Occurrences.entry?, Array.getElem?_modify] at found
    split at found
    next same =>
      obtain rfl := Literal.index_inj.1 same
      obtain ⟨old, foundOld, rfl⟩ := Option.map_eq_some_iff.1 found
      exact .inr ⟨rfl, old, foundOld, rfl⟩
    next different => exact .inl ⟨fun same => different (same ▸ rfl), found⟩
  refine ⟨fun other entry found => ?_, fun other entry found isClean handle member => ?_,
    fun other entry found isDirty => ?_⟩
  · rcases cases other entry found with ⟨_, old⟩ | ⟨rfl, old, foundOld, rfl⟩
    · exact tallied.count other entry old
    · have list : Occurrences.list? ⟨entries, (other :: rest).toArray, unlisted⟩ other =
          some old.handles := by simp [Occurrences.list?, Occurrences.entry?, foundOld]
      change ((Occurrences.cleanEntry arena other old).handles.size : Int) = _
      rw [← Array.length_toList]
      refine congrArg Nat.cast (Arena.length_of_holds space
        (Listed.nodup_cleanEntry (listed.nodup other _ list)) fun handle => ?_)
      rw [Listed.mem_cleanEntry]
      refine ⟨And.right, fun holds => ⟨?_, holds⟩⟩
      obtain ⟨clause, live, inside⟩ := Arena.holds_iff.1 holds
      exact listed.mem_of_live live inside list
  · rcases cases other entry found with ⟨_, old⟩ | ⟨rfl, old, _, rfl⟩
    · exact tallied.clean other entry old isClean handle member
    · obtain ⟨clause, live, _⟩ := Arena.holds_iff.1 (Listed.mem_cleanEntry.1 member).2
      exact ⟨clause, live⟩
  · rcases cases other entry found with ⟨different, old⟩ | ⟨rfl, old, _, rfl⟩
    · have member := tallied.known other entry old isDirty
      exact (List.mem_cons.1 member).resolve_left different
    · cases isDirty

/-- Cleaning leaves no dirty list. -/
theorem clean_all (tallied : Tallied index arena) (listed : Listed index arena)
    (space : arena.slots.size ≤ UInt32.size) : Tallied (index.clean arena) arena := by
  have folded : ∀ (dirty : List Literal) (entries : Array Occurrence) (unlisted : Unlisted entries)
      (after : Occurrences), Listed ⟨entries, dirty.toArray, unlisted⟩ arena →
      Tallied ⟨entries, dirty.toArray, unlisted⟩ arena →
      after.entries = dirty.foldl (fun entries literal =>
        entries.modify literal.index (Occurrences.cleanEntry arena literal)) entries →
      after.dirty = #[] → Tallied after arena := by
    intro dirty
    induction dirty with
    | nil =>
      rintro entries unlisted ⟨_, _, _⟩ _ right rfl rfl
      exact right
    | cons literal rest ih =>
      intro entries unlisted after right counted same none_
      exact ih _ (unlisted.modify literal _) after (right.cleanOne space literal rfl)
        (cleanOne space right counted) same none_
  exact folded index.dirty.toList index.entries index.unlisted _ listed tallied
    (Array.foldl_toList _).symm rfl

/-- Counts and marks are carried over a compaction. -/
theorem relocate (tallied : Tallied index arena) (space : arena.slots.size < UInt32.size)
    (relocated : index.relocate arena.compact.1 = some after) : Tallied after arena.compact.2 := by
  obtain ⟨carried, carries, rfl⟩ := Occurrences.relocate_eq_some.1 relocated
  have old : ∀ literal entry, Occurrences.entry? ⟨carried.toArray, index.dirty,
      Occurrences.unlisted_carried index.unlisted carries⟩ literal =
      some entry → ∃ before, index.entry? literal = some before ∧ entry.count = before.count ∧
        entry.dirty = before.dirty ∧
        arena.compact.1.carry before.handles.toList = some entry.handles.toList := by
    intro literal entry found
    simp only [Occurrences.entry?, List.getElem?_toArray] at found
    obtain ⟨before, foundBefore, same⟩ := Occurrences.getElem?_of_carryEntries carries found
    exact ⟨before, by rwa [Array.getElem?_toList] at foundBefore, same⟩
  refine ⟨fun literal entry found => ?_, fun literal entry found isClean handle member => ?_,
    fun literal entry found isDirty => ?_⟩
  · obtain ⟨before, foundBefore, count, _⟩ := old literal entry found
    rw [count, Arena.contents_compact]
    exact tallied.count literal before foundBefore
  · obtain ⟨before, foundBefore, _, dirty, carriesList⟩ := old literal entry found
    obtain ⟨previous, _, moved⟩ := (Relocation.mem_carry carriesList).1 member
    obtain ⟨clause, _, live, _⟩ := Arena.live?_of_moved space moved
    exact ⟨clause, live⟩
  · obtain ⟨before, foundBefore, _, dirty, _⟩ := old literal entry found
    exact tallied.known literal before foundBefore (dirty ▸ isDirty)

end Tallied

/-! ## Arena and index together -/

/-- Lists and counts are right, every slot has a name other than the reserved one, and the
index has a number of entries. -/
structure Indexed (room : Nat) (index : Occurrences) (arena : Arena) : Prop where
  listed : Listed index arena
  space : arena.slots.size < UInt32.size
  tallied : Tallied index arena
  room : index.entries.size = room

namespace Indexed

variable {room : Nat} {index after : Occurrences} {arena arenaAfter : Arena} {handle : Handle}
  {clause : Clause}

/-- A new clause is indexed. -/
theorem insert (indexed : Indexed room index arena) {literals : List Literal} {redundant : Bool}
    (space : arena.slots.size + 1 < UInt32.size)
    (added : index.add (arena.handleAt arena.slots.size)
      (Clause.ofLiterals literals redundant).literals = some after) :
    Indexed room after (arena.insert literals redundant).2 ∧ after.dirty = index.dirty := by
  have fits : arena.slots.size < UInt32.size := by omega
  obtain ⟨_, dirty, size⟩ := Occurrences.entry?_add
    (Literal.nodup_of_pairwise_lt (Clause.ofLiterals literals redundant).sorted) added
  refine ⟨⟨indexed.listed.insert fits added, ?_, indexed.tallied.insert fits added,
    size.trans indexed.room⟩, dirty⟩
  change (arena.slots.push _).size < UInt32.size
  rw [Array.size_push]
  exact space

/-- A removed clause is in no list. -/
theorem remove (indexed : Indexed room index arena) (live : arena.live? handle = some clause)
    (unlisted : index.remove handle clause.literals = some after)
    (removed : arena.remove handle = some arenaAfter) :
    Indexed room after arenaAfter ∧ after.dirty = index.dirty := by
  obtain ⟨found, _⟩ := Arena.live?_eq_some.1 live
  obtain ⟨_, dirty, size⟩ :=
    Occurrences.entry?_remove (Literal.nodup_of_pairwise_lt clause.sorted) unlisted
  refine ⟨⟨indexed.listed.remove indexed.space.le found unlisted removed, ?_,
    indexed.tallied.remove indexed.listed live unlisted removed, size.trans indexed.room⟩, dirty⟩
  rw [(Arena.slots_remove found removed).1, Array.size_setIfInBounds]
  exact indexed.space

/-- Lists that still have it are dirty. -/
theorem removeLazily (indexed : Indexed room index arena)
    (live : arena.live? handle = some clause)
    (unlisted : index.removeLazily clause.literals = some after)
    (removed : arena.remove handle = some arenaAfter) : Indexed room after arenaAfter := by
  obtain ⟨found, _⟩ := Arena.live?_eq_some.1 live
  obtain ⟨_, _, _, size⟩ := Occurrences.entry?_removeLazily
    (Literal.nodup_of_pairwise_lt clause.sorted) unlisted indexed.tallied.known
  refine ⟨indexed.listed.removeLazily indexed.space.le found unlisted removed, ?_,
    indexed.tallied.removeLazily indexed.listed live unlisted removed, size.trans indexed.room⟩
  rw [(Arena.slots_remove found removed).1, Array.size_setIfInBounds]
  exact indexed.space

theorem clean (indexed : Indexed room index arena) : Indexed room (index.clean arena) arena where
  listed := indexed.listed.clean indexed.space.le
  space := indexed.space
  tallied := indexed.tallied.clean_all indexed.listed indexed.space.le
  room := (index.size_clean arena).trans indexed.room

end Indexed

/-- Arena and index agree: lists, counts and counters are right, and the index has
a number of entries. -/
structure Filed (room : Nat) (index : Occurrences) (arena : Arena) : Prop where
  listed : Listed index arena
  space : arena.slots.size < UInt32.size
  counted : arena.Counted
  tallied : Tallied index arena
  room : index.entries.size = room

namespace Filed

variable {room : Nat} {index after : Occurrences} {arena arenaAfter : Arena} {handle : Handle}
  {clause : Clause}

theorem indexed (filed : Filed room index arena) : Indexed room index arena :=
  ⟨filed.listed, filed.space, filed.tallied, filed.room⟩

theorem of_indexed (indexed : Indexed room index arena) (counted : arena.Counted) :
    Filed room index arena :=
  ⟨indexed.listed, indexed.space, counted, indexed.tallied, indexed.room⟩

/-- A new clause is filed. -/
theorem insert (filed : Filed room index arena) {literals : List Literal} {redundant : Bool}
    (space : arena.slots.size + 1 < UInt32.size)
    (added : index.add (arena.handleAt arena.slots.size)
      (Clause.ofLiterals literals redundant).literals = some after) :
    Filed room after (arena.insert literals redundant).2 ∧ after.dirty = index.dirty := by
  obtain ⟨indexed, dirty⟩ := filed.indexed.insert space added
  exact ⟨.of_indexed indexed (filed.counted.insert literals redundant), dirty⟩

/-- A removed clause is taken out. -/
theorem remove (filed : Filed room index arena) (live : arena.live? handle = some clause)
    (unlisted : index.remove handle clause.literals = some after)
    (removed : arena.remove handle = some arenaAfter) :
    Filed room after arenaAfter ∧ after.dirty = index.dirty := by
  obtain ⟨indexed, dirty⟩ := filed.indexed.remove live unlisted removed
  exact ⟨.of_indexed indexed (filed.counted.remove live removed), dirty⟩

theorem removeLazily (filed : Filed room index arena) (live : arena.live? handle = some clause)
    (unlisted : index.removeLazily clause.literals = some after)
    (removed : arena.remove handle = some arenaAfter) : Filed room after arenaAfter :=
  .of_indexed (filed.indexed.removeLazily live unlisted removed) (filed.counted.remove live removed)

/-- A strengthened clause leaves one list. -/
theorem strengthen (filed : Filed room index arena) {literal : Literal} {length : Nat}
    (live : arena.live? handle = some clause) (inside : literal ∈ clause.literals)
    (long : 3 ≤ clause.literals.length)
    (changed : arena.strengthen handle literal = some (length, arenaAfter))
    (unlisted : index.removeFrom handle literal = some after) :
    Filed room after arenaAfter ∧ after.dirty = index.dirty := by
  obtain ⟨found, alive⟩ := Arena.live?_eq_some.1 live
  obtain ⟨_, _, _, _, slots, _⟩ := Arena.slots_strengthen found inside changed
  obtain ⟨_, dirty, size⟩ := Occurrences.entry?_modify? unlisted
  refine ⟨⟨filed.listed.strengthen filed.space.le found alive inside changed unlisted, ?_,
    filed.counted.strengthen live inside long changed,
    filed.tallied.strengthen live inside changed unlisted, size.trans filed.room⟩, dirty⟩
  rw [slots, Array.size_setIfInBounds]
  exact filed.space

/-- The same clauses under other marks, counted right. -/
theorem of_sameClauses (filed : Filed room index arena) (same : arena.SameClauses arenaAfter)
    (counted : arenaAfter.Counted) : Filed room index arenaAfter where
  listed := filed.listed.of_sameClauses same
  space := same.size ▸ filed.space
  counted := counted
  tallied := filed.tallied.of_sameClauses same
  room := filed.room

theorem clean (filed : Filed room index arena) : Filed room (index.clean arena) arena :=
  .of_indexed filed.indexed.clean filed.counted

theorem addVar (filed : Filed room index arena) : Filed (room + 2) index.addVar arena where
  listed := filed.listed.addVar
  space := filed.space
  counted := filed.counted
  tallied := filed.tallied.addVar filed.listed
  room := by rw [index.size_addVar, filed.room]

/-- A compaction carries the files over. -/
theorem relocate (filed : Filed room index arena)
    (relocated : index.relocate arena.compact.1 = some after) :
    Filed room after arena.compact.2 where
  listed := filed.listed.relocate filed.space relocated
  space := by
    refine lt_of_le_of_lt ?_ filed.space
    simp only [Arena.compact, Array.size_filter_le]
  counted := filed.counted.compact
  tallied := filed.tallied.relocate filed.space relocated
  room := (Occurrences.size_relocate relocated).trans filed.room

end Filed

end CnfSimplifier
