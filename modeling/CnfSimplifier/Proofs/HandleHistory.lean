import CnfSimplifier.Proofs.Compaction

/-!
# Handles over the history of an arena

Handles outlive compactions only by being carried over each of them. To say which
clause a handle means, the slots are labelled: a clause gets a label when it is
stored, the label goes where the clause goes, and a compaction that reclaims the
slot ends it. The labels are read by no operation.

A handle that is carried over every compaction stays at its label, or is dropped
because the label ended. A handle that misses a compaction finds nothing, because
fewer compactions than there are epochs never bring an epoch back.
-/
namespace CnfSimplifier

variable {labels : List Nat} {clauses : List Clause}

/-! ## Many relocations -/

/-- The new name of a handle, unless it is dropped. -/
def Fate.current? : Fate → Option Handle
  | .moved handle => some handle
  | .reclaimed => none
  | .stale => none

namespace Relocation

/-- What becomes of a handle that is carried over every relocation in turn. -/
def fateAll : List Relocation → Handle → Fate
  | [], handle => .moved handle
  | relocation :: rest, handle =>
    match relocation.fate handle with
    | .moved new => fateAll rest new
    | .reclaimed => .reclaimed
    | .stale => .stale

/-- Carry a list of handles over every relocation in turn. -/
def carryAll (relocations : List Relocation) (handles : List Handle) : Option (List Handle) :=
  relocations.foldlM (fun held relocation => relocation.carry held) handles

/-- Carry an array of handles over every relocation in turn. -/
def carryArrayAll (relocations : List Relocation) (handles : Array Handle) :
    Option (Array Handle) :=
  relocations.foldlM (fun held relocation => relocation.carryArray held) handles

variable {relocation : Relocation} {relocations : List Relocation} {handle new : Handle}

/-- A handle that moved moves on. -/
theorem fateAll_append_of_moved (moved : fateAll relocations handle = .moved new) :
    fateAll (relocations ++ [relocation]) handle = relocation.fate new := by
  induction relocations generalizing handle with
  | nil =>
    obtain rfl := Fate.moved.inj moved
    simp only [List.nil_append, fateAll]
    cases relocation.fate handle <;> rfl
  | cons first rest ih =>
    simp only [fateAll, List.cons_append] at moved ⊢
    cases fate : first.fate handle with
    | moved next =>
      simp only [fate] at moved ⊢
      exact ih moved
    | reclaimed => simp [fate] at moved
    | stale => simp [fate] at moved

/-- A reclaimed handle stays so. -/
theorem fateAll_append_of_reclaimed (reclaimed : fateAll relocations handle = .reclaimed) :
    fateAll (relocations ++ [relocation]) handle = .reclaimed := by
  induction relocations generalizing handle with
  | nil => cases reclaimed
  | cons first rest ih =>
    simp only [fateAll, List.cons_append] at reclaimed ⊢
    cases fate : first.fate handle with
    | moved next =>
      simp only [fate] at reclaimed ⊢
      exact ih reclaimed
    | reclaimed => rfl
    | stale => simp [fate] at reclaimed

/-- Without stale handles a list keeps the order and the repetitions of those that
are not dropped. -/
theorem carry_eq_filterMap {handles : List Handle}
    (known : ∀ handle ∈ handles, relocation.fate handle ≠ .stale) :
    relocation.carry handles =
      some (handles.filterMap fun handle => (relocation.fate handle).current?) := by
  induction handles with
  | nil => rfl
  | cons handle rest ih =>
    have later := ih fun other member => known other (List.mem_cons_of_mem _ member)
    unfold carry
    cases fate : relocation.fate handle with
    | moved new => simp [later, fate, Fate.current?]
    | reclaimed => simp [later, fate, Fate.current?]
    | stale => exact absurd fate (known handle List.mem_cons_self)

/-- Lists carry the handles of clauses that survived. -/
theorem carryAll_eq_filterMap {handles : List Handle}
    (known : ∀ handle ∈ handles, fateAll relocations handle ≠ .stale) :
    carryAll relocations handles =
      some (handles.filterMap fun handle => (fateAll relocations handle).current?) := by
  induction relocations generalizing handles with
  | nil => simp [carryAll, fateAll, Fate.current?]
  | cons first rest ih =>
    have knownFirst : ∀ handle ∈ handles, first.fate handle ≠ .stale := by
      intro handle member stale
      exact known handle member (by simp only [fateAll, stale])
    have knownRest : ∀ new ∈ handles.filterMap fun handle => (first.fate handle).current?,
        fateAll rest new ≠ .stale := by
      intro new member
      obtain ⟨handle, inHandles, isNew⟩ := List.mem_filterMap.1 member
      have notStale := known handle inHandles
      cases fate : first.fate handle with
      | moved next =>
        simp only [fate, Fate.current?, Option.some.injEq] at isNew
        subst isNew
        simpa only [fateAll, fate] using notStale
      | reclaimed => simp [fate, Fate.current?] at isNew
      | stale => simp [fate, Fate.current?] at isNew
    have carried := ih knownRest
    unfold carryAll at carried ⊢
    rw [List.foldlM_cons, carry_eq_filterMap knownFirst]
    refine carried.trans (congrArg some ?_)
    rw [List.filterMap_filterMap]
    congr 1
    funext handle
    simp only [fateAll]
    cases first.fate handle <;> rfl

/-- An array is carried over as the list of its handles is. -/
theorem carryArrayAll_eq (handles : Array Handle) :
    carryArrayAll relocations handles =
      (carryAll relocations handles.toList).map List.toArray := by
  induction relocations generalizing handles with
  | nil => simp [carryArrayAll, carryAll]
  | cons first rest ih =>
    unfold carryArrayAll carryAll at ih ⊢
    rw [List.foldlM_cons, List.foldlM_cons, carryArray_eq]
    cases first.carry handles.toList with
    | none => rfl
    | some carried => exact ih carried.toArray

end Relocation

namespace Arena

variable {arena : Arena} {handle : Handle} {clause : Clause}

/-- Of the handles of this epoch none is stale for the next compaction, and those of
dead clauses are dropped. -/
theorem fate_of_dead (space : arena.slots.size < UInt32.size)
    (found : arena.get? handle = some clause) (dead : clause.isDead = true) :
    arena.compact.1.fate handle = .reclaimed := by
  cases fate : arena.compact.1.fate handle with
  | moved new =>
    obtain ⟨⟨other, live⟩, _⟩ := (fate_compact space).1 fate
    obtain ⟨foundOther, alive⟩ := live?_eq_some.1 live
    rw [found, Option.some.injEq] at foundOther
    rw [← foundOther, dead] at alive
    cases alive
  | reclaimed => rfl
  | stale =>
    have current : handle.epoch = arena.compact.1.fromEpoch := (get?_eq_some.1 found).1
    unfold Relocation.fate at fate
    rw [if_pos current] at fate
    split at fate
    · split at fate <;> cases fate
    · cases fate

/-- A live clause moves to the handle of its rank. -/
theorem exists_moved (space : arena.slots.size < UInt32.size)
    (found : arena.get? handle = some clause) (alive : clause.isDead = false) :
    ∃ new, arena.compact.1.fate handle = .moved new ∧ arena.compact.2.get? new = some clause ∧
      new.index = rank arena.slots.toList handle.index := by
  have live := live?_eq_some.2 ⟨found, alive⟩
  have moved := (fate_compact space).2 ⟨⟨clause, live⟩, rfl⟩
  obtain ⟨same, liveSame, liveNew, place⟩ := live?_of_moved space moved
  rw [live, Option.some.injEq] at liveSame
  subst liveSame
  exact ⟨_, moved, (live?_eq_some.1 liveNew).1, place⟩

end Arena

/-! ## Labels -/

/-- The labels of the slots that a compaction keeps. -/
def survivingLabels : List Nat → List Clause → List Nat
  | label :: labels, clause :: clauses =>
    if clause.isDead then survivingLabels labels clauses
    else label :: survivingLabels labels clauses
  | _, _ => []

/-- Labels that survive were there before. -/
theorem survivingLabels_sublist (labels : List Nat) (clauses : List Clause) :
    (survivingLabels labels clauses).Sublist labels := by
  fun_induction survivingLabels labels clauses with
  | case1 label labels clause clauses dead ih => exact ih.cons _
  | case2 label labels clause clauses alive ih => exact ih.cons_cons _
  | case3 => exact List.nil_sublist _

/-- There are as many labels left as live clauses. -/
theorem length_survivingLabels (same : labels.length = clauses.length) :
    (survivingLabels labels clauses).length =
      (clauses.filter fun clause => !clause.isDead).length := by
  fun_induction survivingLabels labels clauses with
  | case1 label labels clause clauses dead ih => simp [dead, ih (by simpa using same)]
  | case2 label labels clause clauses alive ih => simp [alive, ih (by simpa using same)]
  | case3 labels clauses short =>
    cases labels with
    | nil =>
      obtain rfl := List.length_eq_zero_iff.1 same.symm
      rfl
    | cons label labels =>
      cases clauses with
      | nil => cases same
      | cons clause clauses => exact absurd rfl (short _ _ _ _ rfl)

/-- The label of a live clause goes to the place of its rank. -/
theorem survivingLabels_rank {slot label : Nat} {clause : Clause}
    (found : clauses[slot]? = some clause) (alive : clause.isDead = false)
    (labelled : labels[slot]? = some label) :
    (survivingLabels labels clauses)[Arena.rank clauses slot]? = some label := by
  induction clauses generalizing labels slot with
  | nil => cases found
  | cons first rest ih =>
    cases labels with
    | nil => cases labelled
    | cons firstLabel others =>
      cases slot with
      | zero =>
        obtain rfl := Option.some.inj found
        simpa [survivingLabels, alive, Arena.rank] using labelled
      | succ slot =>
        have later := @ih others slot found labelled
        cases dead : first.isDead with
        | true => simpa [survivingLabels, dead, Arena.rank] using later
        | false => simpa [survivingLabels, dead, Arena.rank] using later

/-- The label of a dead clause ends. -/
theorem not_mem_survivingLabels {slot label : Nat} {clause : Clause} (nodup : labels.Nodup)
    (found : clauses[slot]? = some clause) (dead : clause.isDead = true)
    (labelled : labels[slot]? = some label) : label ∉ survivingLabels labels clauses := by
  induction clauses generalizing labels slot with
  | nil => cases found
  | cons first rest ih =>
    cases labels with
    | nil => cases labelled
    | cons firstLabel others =>
      obtain ⟨absent, nodupOthers⟩ := List.nodup_cons.1 nodup
      cases slot with
      | zero =>
        obtain rfl := Option.some.inj found
        obtain rfl := Option.some.inj labelled
        simp only [survivingLabels, dead, if_true]
        exact fun member => absent ((survivingLabels_sublist _ _).mem member)
      | succ slot =>
        have later := @ih others slot nodupOthers found labelled
        have different : label ≠ firstLabel := by
          rintro rfl
          exact absent (List.mem_of_getElem? (i := slot) labelled)
        unfold survivingLabels
        split
        · exact later
        · simp [different, later]

/-- An arena whose slots are labelled with the clauses they hold. -/
structure LabelledArena where
  arena : Arena
  /-- The label of every slot. -/
  labels : List Nat
  /-- How many labels were given away. -/
  given : Nat
  /-- The compactions so far. -/
  relocations : List Relocation

namespace LabelledArena

/-- The slots of an arena labelled with their places. -/
def start (arena : Arena) : LabelledArena where
  arena := arena
  labels := List.range arena.slots.size
  given := arena.slots.size
  relocations := []

/-- One operation on the arena. The reserved slot is never filled, only live clauses
are changed, and no clause is cut to fewer than two literals. -/
inductive Step : LabelledArena → LabelledArena → Prop
  | insert {before : LabelledArena} (literals : List Literal) (redundant : Bool)
      (room : before.arena.slots.size + 1 < UInt32.size) :
      Step before { before with
        arena := (before.arena.insert literals redundant).2
        labels := before.labels ++ [before.given]
        given := before.given + 1 }
  | remove {before : LabelledArena} {arena : Arena} {handle : Handle} {clause : Clause}
      (live : before.arena.live? handle = some clause)
      (removed : before.arena.remove handle = some arena) :
      Step before { before with arena := arena }
  | makeIrredundant {before : LabelledArena} {arena : Arena} {handle : Handle} {clause : Clause}
      (live : before.arena.live? handle = some clause)
      (made : before.arena.makeIrredundant handle = some arena) :
      Step before { before with arena := arena }
  | strengthen {before : LabelledArena} {arena : Arena} {handle : Handle} {clause : Clause}
      {literal : Literal} {length : Nat}
      (live : before.arena.live? handle = some clause) (long : 3 ≤ clause.literals.length)
      (changed : before.arena.strengthen handle literal = some (length, arena)) :
      Step before { before with arena := arena }
  | compact {before : LabelledArena} :
      Step before { before with
        arena := before.arena.compact.2
        labels := survivingLabels before.labels before.arena.slots.toList
        relocations := before.relocations ++ [before.arena.compact.1] }

/-- Any number of operations. -/
def Leads : LabelledArena → LabelledArena → Prop := Relation.ReflTransGen Step

/-! ## What a history keeps -/

/-- The labels of a later arena are in order: each is in one slot, and none that is
still to be given is in use. -/
structure Labelled (origin : Arena) (later : LabelledArena) : Prop where
  space : later.arena.slots.size < UInt32.size
  length : later.labels.length = later.arena.slots.size
  nodup : later.labels.Nodup
  given : ∀ label ∈ later.labels, label < later.given
  first : origin.slots.size ≤ later.given
  epoch : later.arena.epoch = origin.epoch + UInt32.ofNat later.relocations.length

/-- A handle of an earlier arena that was carried over every compaction is at the
label of its clause, or its label ended. -/
def Denotes (later : LabelledArena) (handle : Handle) (clause : Clause) : Prop :=
  (∃ current copy, Relocation.fateAll later.relocations handle = .moved current ∧
    later.arena.get? current = some copy ∧ later.labels[current.index]? = some handle.index ∧
    copy.literals.Sublist clause.literals) ∨
  (Relocation.fateAll later.relocations handle = .reclaimed ∧ handle.index ∉ later.labels)

/-- What every history keeps of the handles that were issued before it. -/
structure Follows (origin : Arena) (later : LabelledArena) : Prop where
  /-- Every clause has a label of its own. -/
  labelled : later.labels.Nodup ∧ later.labels.length = later.arena.slots.size
  denotes : ∀ handle clause, origin.get? handle = some clause → later.Denotes handle clause
  apart : ∀ first second, (∃ clause, origin.get? first = some clause) →
    (∃ clause, origin.get? second = some clause) →
    ∀ current, Relocation.fateAll later.relocations first = .moved current →
      Relocation.fateAll later.relocations second = .moved current → first = second
  /-- Lists keep the order and the repetitions of the handles that are not dropped. -/
  lists : ∀ handles, (∀ handle ∈ handles, ∃ clause, origin.get? handle = some clause) →
    Relocation.carryAll later.relocations handles = some (handles.filterMap fun handle =>
      (Relocation.fateAll later.relocations handle).current?)
  arrays : ∀ handles : Array Handle, Relocation.carryArrayAll later.relocations handles =
    (Relocation.carryAll later.relocations handles.toList).map List.toArray
  /-- A handle that was not carried over finds nothing. -/
  stale : later.relocations ≠ [] → ∀ handle clause, origin.get? handle = some clause →
    later.arena.get? handle = none

variable {origin : Arena} {before after : LabelledArena} {handle : Handle} {clause : Clause}
  {arena later : Arena}

/-! ## One operation -/

/-- Clauses stay in their slots and lose literals at most. -/
structure Narrows (arena after : Arena) : Prop where
  epoch : after.epoch = arena.epoch
  clauses : ∀ (slot : Nat) (clause : Clause), arena.slots[slot]? = some clause →
    ∃ copy, after.slots[slot]? = some copy ∧ copy.literals.Sublist clause.literals

theorem Narrows.refl (arena : Arena) : Narrows arena arena :=
  ⟨rfl, fun _ clause found => ⟨clause, found, List.Sublist.refl _⟩⟩

theorem Narrows.trans {arena middle later : Arena} (first : Narrows arena middle)
    (second : Narrows middle later) : Narrows arena later := by
  refine ⟨second.epoch.trans first.epoch, fun slot clause found => ?_⟩
  obtain ⟨copy, foundCopy, shorter⟩ := first.clauses slot clause found
  obtain ⟨last, foundLast, short⟩ := second.clauses slot copy foundCopy
  exact ⟨last, foundLast, short.trans shorter⟩

/-- A clause is replaced by a part of it. -/
theorem Narrows.of_set {slot : Nat} {new : Clause} (found : arena.slots[slot]? = some clause)
    (slots : later.slots = arena.slots.setIfInBounds slot new) (epoch : later.epoch = arena.epoch)
    (shorter : new.literals.Sublist clause.literals) : Narrows arena later := by
  refine ⟨epoch, fun place other foundOther => ?_⟩
  rw [slots, Array.getElem?_setIfInBounds]
  split
  next same =>
    subst same
    rw [found, Option.some.injEq] at foundOther
    subst foundOther
    exact ⟨new, if_pos (Array.getElem?_eq_some_iff.1 found).1, shorter⟩
  next => exact ⟨other, foundOther, List.Sublist.refl _⟩

/-- A clause is put behind the others. -/
theorem Narrows.of_push {new : Clause} (slots : later.slots = arena.slots.push new)
    (epoch : later.epoch = arena.epoch) : Narrows arena later := by
  refine ⟨epoch, fun slot clause found => ⟨clause, ?_, List.Sublist.refl _⟩⟩
  have inside : slot < arena.slots.size := (Array.getElem?_eq_some_iff.1 found).1
  rw [slots, Array.getElem?_push_lt inside, ← found, Array.getElem?_eq_getElem inside]

/-- A removed clause keeps its slot. -/
theorem narrows_remove (found : arena.get? handle = some clause)
    (removed : arena.remove handle = some later) :
    Narrows arena later ∧ later.slots.size = arena.slots.size := by
  obtain ⟨slots, epoch, _⟩ := Arena.slots_remove found removed
  exact ⟨.of_set (Arena.get?_eq_some.1 found).2 slots epoch (List.Sublist.refl _),
    by rw [slots, Array.size_setIfInBounds]⟩

/-- A redundant mark is taken off. -/
theorem narrows_makeIrredundant (made : arena.makeIrredundant handle = some later) :
    Narrows arena later ∧ later.slots.size = arena.slots.size := by
  unfold Arena.makeIrredundant at made
  split at made
  · cases made
  next clause found =>
    split at made
    · cases made
      exact ⟨.of_set found rfl rfl (List.Sublist.refl _), Array.size_setIfInBounds⟩
    · cases made
      exact ⟨⟨rfl, fun _ other foundOther => ⟨other, foundOther, List.Sublist.refl _⟩⟩, rfl⟩

/-- Strengthening narrows one clause. -/
theorem narrows_strengthen {literal : Literal} {length : Nat}
    (found : arena.get? handle = some clause)
    (changed : arena.strengthen handle literal = some (length, later)) :
    Narrows arena later ∧ later.slots.size = arena.slots.size := by
  by_cases inside : literal ∈ clause.literals
  · obtain ⟨shorter, literals, _, _, slots, epoch, _⟩ := Arena.slots_strengthen found inside changed
    exact ⟨.of_set (Arena.get?_eq_some.1 found).2 slots epoch (literals ▸ List.erase_sublist),
      by rw [slots, Array.size_setIfInBounds]⟩
  · have absent : clause.contains literal = false := by
      simpa [Clause.contains] using inside
    unfold Arena.strengthen at changed
    simp only [found, absent, Bool.false_eq_true, if_false, Option.some.injEq,
      Prod.mk.injEq] at changed
    obtain ⟨_, rfl⟩ := changed
    exact ⟨⟨rfl, fun _ other foundOther => ⟨other, foundOther, List.Sublist.refl _⟩⟩, rfl⟩

/-- A clause is marked. -/
theorem narrows_mark {change : ClauseFlags → ClauseFlags}
    (marked : arena.mark handle change = some later) :
    Narrows arena later ∧ later.slots.size = arena.slots.size := by
  unfold Arena.mark at marked
  split at marked
  · cases marked
  next clause found =>
    cases marked
    let new := { clause with flags := change clause.flags }
    exact ⟨.of_set (Arena.get?_eq_some.1 found).2 (rfl : _ = arena.slots.setIfInBounds _ new) rfl
      (List.Sublist.refl _), Array.size_setIfInBounds⟩

/-- As long as clauses stay in their slots, handles go on meaning them. -/
theorem Denotes.of_narrows (denotes : before.Denotes handle clause)
    (narrows : Narrows before.arena after.arena)
    (relocations : after.relocations = before.relocations)
    (kept : ∀ (slot : Nat) (label : Nat), before.labels[slot]? = some label →
      after.labels[slot]? = some label)
    (ended : handle.index ∈ after.labels → handle.index ∈ before.labels) :
    after.Denotes handle clause := by
  unfold Denotes
  rw [relocations]
  rcases denotes with ⟨current, copy, moved, found, label, sub⟩ | ⟨reclaimed, absent⟩
  · obtain ⟨epoch, inSlot⟩ := Arena.get?_eq_some.1 found
    obtain ⟨later, foundLater, shorter⟩ := narrows.clauses _ copy inSlot
    exact .inl ⟨current, later, moved,
      Arena.get?_eq_some.2 ⟨epoch.trans narrows.epoch.symm, foundLater⟩, kept _ _ label,
      shorter.trans sub⟩
  · exact .inr ⟨reclaimed, fun member => absent (ended member)⟩

/-- Over a compaction a handle is carried to the new place of its clause, or it is
dropped together with the clause's label. -/
theorem Denotes.compact (denotes : before.Denotes handle clause)
    (labelled : Labelled origin before) :
    Denotes { before with
      arena := before.arena.compact.2
      labels := survivingLabels before.labels before.arena.slots.toList
      relocations := before.relocations ++ [before.arena.compact.1] } handle clause := by
  rcases denotes with ⟨current, copy, moved, found, label, sub⟩ | ⟨reclaimed, absent⟩
  · have inSlot := (Arena.get?_eq_some.1 found).2
    rw [← Array.getElem?_toList] at inSlot
    cases dead : copy.isDead with
    | true =>
      refine .inr ⟨?_, not_mem_survivingLabels labelled.nodup inSlot dead label⟩
      exact (Relocation.fateAll_append_of_moved moved).trans
        (Arena.fate_of_dead labelled.space found dead)
    | false =>
      obtain ⟨new, movedOn, foundNew, place⟩ := Arena.exists_moved labelled.space found dead
      refine .inl ⟨new, copy, (Relocation.fateAll_append_of_moved moved).trans movedOn, foundNew,
        ?_, sub⟩
      rw [place]
      exact survivingLabels_rank inSlot dead label
  · exact .inr ⟨Relocation.fateAll_append_of_reclaimed reclaimed,
      fun member => absent ((survivingLabels_sublist _ _).mem member)⟩

/-- An operation keeps the labels in order. -/
theorem Step.labelled (step : Step before after) (labelled : Labelled origin before) :
    Labelled origin after := by
  cases step with
  | insert literals redundant room =>
    exact {
      space := by
        change (before.arena.slots.push _).size < UInt32.size
        rw [Array.size_push]
        exact room
      length := by
        change _ = (before.arena.slots.push _).size
        rw [Array.size_push, List.length_append, labelled.length]
        rfl
      nodup := by
        refine List.nodup_append.2 ⟨labelled.nodup, List.nodup_singleton _, ?_⟩
        intro label member fresh isFresh
        rw [List.mem_singleton.1 isFresh]
        exact (labelled.given label member).ne
      given := by
        intro label member
        rcases List.mem_append.1 member with old | new
        · exact (labelled.given label old).trans (Nat.lt_succ_self _)
        · rw [List.mem_singleton.1 new]
          exact Nat.lt_succ_self _
      first := labelled.first.trans (Nat.le_succ _)
      epoch := labelled.epoch }
  | remove live removed =>
    obtain ⟨narrows, size⟩ := narrows_remove (Arena.live?_eq_some.1 live).1 removed
    exact ⟨size ▸ labelled.space, labelled.length.trans size.symm, labelled.nodup, labelled.given,
      labelled.first, narrows.epoch.trans labelled.epoch⟩
  | makeIrredundant live made =>
    obtain ⟨narrows, size⟩ := narrows_makeIrredundant made
    exact ⟨size ▸ labelled.space, labelled.length.trans size.symm, labelled.nodup, labelled.given,
      labelled.first, narrows.epoch.trans labelled.epoch⟩
  | strengthen live long changed =>
    obtain ⟨narrows, size⟩ := narrows_strengthen (Arena.live?_eq_some.1 live).1 changed
    exact ⟨size ▸ labelled.space, labelled.length.trans size.symm, labelled.nodup, labelled.given,
      labelled.first, narrows.epoch.trans labelled.epoch⟩
  | compact =>
    exact {
      space := by
        refine lt_of_le_of_lt ?_ labelled.space
        simp only [Arena.compact, Array.size_filter_le]
      length := by
        rw [length_survivingLabels (by simpa using labelled.length), ← Array.toList_filter,
          Array.length_toList]
        rfl
      nodup := labelled.nodup.sublist (survivingLabels_sublist _ _)
      given := fun label member =>
        labelled.given label ((survivingLabels_sublist _ _).mem member)
      first := labelled.first
      epoch := by
        change before.arena.epoch + 1 = _
        rw [labelled.epoch, List.length_append, List.length_singleton, UInt32.ofNat_add,
          UInt32.add_assoc]
        rfl }

/-- An operation keeps what a handle of an earlier arena means. -/
theorem Step.denotes (step : Step before after) (labelled : Labelled origin before)
    (issued : handle.index < origin.slots.size) (denotes : before.Denotes handle clause) :
    after.Denotes handle clause := by
  cases step with
  | insert literals redundant room =>
    refine denotes.of_narrows (.of_push rfl rfl) rfl
      (fun slot label found => ?_) fun member => ?_
    · rw [List.getElem?_append_left (List.getElem?_eq_some_iff.1 found).1, found]
    · rcases List.mem_append.1 member with old | new
      · exact old
      · rw [List.mem_singleton.1 new] at issued
        exact absurd labelled.first (by omega)
  | remove live removed =>
    exact denotes.of_narrows (narrows_remove (Arena.live?_eq_some.1 live).1 removed).1 rfl
      (fun _ _ found => found) id
  | makeIrredundant live made =>
    exact denotes.of_narrows (narrows_makeIrredundant made).1 rfl (fun _ _ found => found) id
  | strengthen live long changed =>
    exact denotes.of_narrows (narrows_strengthen (Arena.live?_eq_some.1 live).1 changed).1 rfl
      (fun _ _ found => found) id
  | compact => exact denotes.compact labelled

/-! ## Whole histories -/

theorem labelled_start (space : origin.slots.size < UInt32.size) :
    Labelled origin (start origin) where
  space := space
  length := List.length_range
  nodup := List.nodup_range
  given := fun _ member => List.mem_range.1 member
  first := Nat.le_refl _
  epoch := by simp [start]

/-- At the beginning a handle denotes its clause. -/
theorem denotes_start (found : origin.get? handle = some clause) :
    (start origin).Denotes handle clause := by
  have inside : handle.index < origin.slots.size :=
    (Array.getElem?_eq_some_iff.1 (Arena.get?_eq_some.1 found).2).1
  exact .inl ⟨handle, clause, rfl, found, List.getElem?_range inside, List.Sublist.refl _⟩

theorem Leads.labelled {later : LabelledArena} (leads : Leads (start origin) later)
    (space : origin.slots.size < UInt32.size) : Labelled origin later := by
  induction leads with
  | refl => exact labelled_start space
  | tail _ step ih => exact step.labelled ih

/-- A handle denotes its clause as long as that is there. -/
theorem Leads.denotes {later : LabelledArena} (leads : Leads (start origin) later)
    (space : origin.slots.size < UInt32.size) (found : origin.get? handle = some clause) :
    later.Denotes handle clause := by
  have issued : handle.index < origin.slots.size :=
    (Array.getElem?_eq_some_iff.1 (Arena.get?_eq_some.1 found).2).1
  induction leads with
  | refl => exact denotes_start found
  | tail earlier step ih => exact step.denotes (Leads.labelled earlier space) issued ih

/-- Whatever is done to an arena, as long as it has room and does not run through all
epochs: a handle carried over every compaction means the clause it was issued for, or
it was dropped with the clause. -/
theorem follows_of_leads {later : LabelledArena} (space : origin.slots.size < UInt32.size)
    (leads : Leads (start origin) later) (few : later.relocations.length < UInt32.size) :
    Follows origin later := by
  have labelled := leads.labelled space
  have denotes : ∀ handle clause, origin.get? handle = some clause →
      later.Denotes handle clause := fun handle clause => leads.denotes space
  have known : ∀ handle, (∃ clause, origin.get? handle = some clause) →
      Relocation.fateAll later.relocations handle ≠ .stale := by
    rintro handle ⟨clause, found⟩ stale
    rcases denotes handle clause found with ⟨_, _, moved, _⟩ | ⟨reclaimed, _⟩
    · rw [stale] at moved
      cases moved
    · rw [stale] at reclaimed
      cases reclaimed
  refine ⟨⟨labelled.nodup, labelled.length⟩, denotes, ?_, fun handles issued =>
    Relocation.carryAll_eq_filterMap fun handle member => known handle (issued handle member),
    Relocation.carryArrayAll_eq, ?_⟩
  · -- Two handles of one clause have one label, which is the slot of both.
    rintro first second ⟨clause, foundFirst⟩ ⟨other, foundSecond⟩ current movedFirst movedSecond
    have labelOf : ∀ {handle : Handle} {clause : Clause}, origin.get? handle = some clause →
        Relocation.fateAll later.relocations handle = .moved current →
        later.labels[current.index]? = some handle.index := by
      intro handle clause found moved
      rcases denotes handle clause found with ⟨place, _, movedPlace, _, label, _⟩ | ⟨reclaimed, _⟩
      · rw [moved, Fate.moved.injEq] at movedPlace
        exact movedPlace ▸ label
      · rw [moved] at reclaimed
        cases reclaimed
    have sameIndex : first.index = second.index := by
      have labels := (labelOf foundFirst movedFirst).symm.trans (labelOf foundSecond movedSecond)
      exact Option.some.inj labels
    rw [← Arena.handleAt_index (Arena.get?_eq_some.1 foundFirst).1, sameIndex,
      Arena.handleAt_index (Arena.get?_eq_some.1 foundSecond).1]
  · -- The epoch moved on, and by less than the number of epochs.
    intro compacted handle clause found
    unfold Arena.get?
    refine if_neg fun current => compacted (List.length_eq_zero_iff.1 ?_)
    rw [(Arena.get?_eq_some.1 found).1, labelled.epoch] at current
    have word : UInt32.ofNat later.relocations.length = 0 := by
      have shifted := congrArg (fun epoch => epoch - origin.epoch) current
      simpa [UInt32.add_comm origin.epoch] using shifted.symm
    exact (UInt32.toNat_ofNat_of_lt few).symm.trans (congrArg UInt32.toNat word)

/-- Three clauses; the second is removed and its slot reclaimed, the first is cut
short, and another compaction follows. -/
theorem follows_of_leads_twice :
    let literal := fun value => Literal.ofInt value
    let two := (({} : Arena).insert [literal 1, literal 2, literal 3] false).2.insert
      [literal (-1), literal 2] false
    let origin := (two.2.insert [literal (-2), literal 4] false).2
    ∃ later, (start origin).Leads later ∧ later.relocations.length = 2 ∧
      Relocation.carryArrayAll later.relocations #[⟨0, 2⟩, ⟨0, 0⟩, ⟨0, 1⟩, ⟨0, 2⟩] =
        some #[⟨2, 1⟩, ⟨2, 0⟩, ⟨2, 1⟩] ∧
      (later.arena.get? ⟨2, 0⟩).map Clause.literals = some [literal 1, literal 2] ∧
      Follows origin later := by
  intro literal two origin
  have removes := @Step.remove (start origin) _ ⟨0, 1⟩ _ rfl rfl
  have compacted : Leads (start origin) _ := (Relation.ReflTransGen.single removes).tail .compact
  have leads := (compacted.tail
    (@Step.strengthen _ _ ⟨1, 0⟩ _ (literal 3) _ rfl (by decide) rfl)).tail .compact
  exact ⟨_, leads, rfl, by decide +kernel, by decide +kernel, follows_of_leads (by decide +kernel) leads (by decide)⟩
end LabelledArena

end CnfSimplifier
