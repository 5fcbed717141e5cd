import Mathlib.Algebra.BigOperators.Group.Multiset.Basic
import CnfSimplifier.Proofs.ComposedTechniques

/-!
# Clauses that wear down

Where no clause is added, clauses go and lose literals. A clause that lost a literal is
marked as a candidate for subsumption, and it stays one until it was looked at. So a
clause that is no candidate is as it was, and among those there were no candidates.

How much is left is told by the number of live literals: it falls whenever a clause goes
or loses a literal, and as long as it stays the live clauses are the same.
-/
namespace CnfSimplifier

/-! ## Clauses -/

namespace Clause

/-- A clause is marked as a candidate for subsumption. -/
def isCandidate (clause : Clause) : Bool := clause.flags.subsume || clause.flags.strengthen

/-- The number of live literals in a clause. -/
def weight (clause : Clause) : Nat := if clause.isDead then 0 else clause.size

theorem sum_content (clause : Clause) : (clause.content.map List.length).sum = clause.weight := by
  unfold weight
  cases alive : clause.isDead with
  | true => simp [content_of_dead alive]
  | false => simp [content_of_live alive, size]

/-- What a clause comes to that dies, loses literals or is left alone. It is a candidate
if and only if it was one or lost a literal. -/
structure WearsTo (old clause : Clause) : Prop where
  literals : clause.literals.Sublist old.literals
  dead : old.isDead = true → clause.isDead = true
  stays : old.isCandidate = true → clause.isCandidate = true
  comes : clause.isCandidate = true → old.isCandidate = true ∨ clause.size < old.size
  shorter : clause.size < old.size → clause.isCandidate = true

variable {old middle clause : Clause}

theorem WearsTo.refl (clause : Clause) : clause.WearsTo clause :=
  ⟨.refl _, id, id, .inl, fun shorter => absurd shorter (Nat.lt_irrefl _)⟩

theorem WearsTo.size_le (wears : old.WearsTo clause) : clause.size ≤ old.size :=
  wears.literals.length_le

theorem WearsTo.trans (first : old.WearsTo middle) (second : middle.WearsTo clause) :
    old.WearsTo clause where
  literals := second.literals.trans first.literals
  dead isDead := second.dead (first.dead isDead)
  stays candidate := second.stays (first.stays candidate)
  comes candidate := by
    have below := second.size_le
    rcases second.comes candidate with between | shorter
    · exact (first.comes between).imp_right below.trans_lt
    · exact .inr (shorter.trans_le first.size_le)
  shorter shorter := by
    rcases Nat.lt_or_ge clause.size middle.size with now | same
    · exact second.shorter now
    · exact second.stays (first.shorter (same.trans_lt shorter))

/-- A clause that became no shorter is the same. -/
theorem WearsTo.literals_eq (wears : old.WearsTo clause) (same : ¬ clause.size < old.size) :
    clause.literals = old.literals :=
  wears.literals.eq_of_length_le (Nat.le_of_not_lt same)

/-- A worn clause has no more weight. -/
theorem WearsTo.weight_le (wears : old.WearsTo clause) : clause.weight ≤ old.weight := by
  unfold weight
  cases dead : old.isDead with
  | true =>
    rw [wears.dead dead]
    exact le_rfl
  | false =>
    rw [if_neg Bool.false_ne_true]
    split
    · exact Nat.zero_le _
    · exact wears.size_le

/-- Nor have worn clauses together. -/
theorem sum_weight_le {clauses later : List Clause} (wear : List.Forall₂ WearsTo clauses later) :
    (later.map weight).sum ≤ (clauses.map weight).sum := by
  induction wear with
  | nil => exact le_rfl
  | cons head _ ih =>
    rw [List.map_cons, List.map_cons, List.sum_cons, List.sum_cons]
    exact Nat.add_le_add head.weight_le ih

/-- If the sum is the same, no clause has worn. -/
theorem weight_eq_of_sum_eq {clauses later : List Clause} (wear : List.Forall₂ WearsTo clauses later)
    (same : (clauses.map weight).sum ≤ (later.map weight).sum) :
    List.Forall₂ (fun old clause : Clause => clause.weight = old.weight) clauses later := by
  induction wear with
  | nil => exact .nil
  | cons head tail ih =>
    rw [List.map_cons, List.map_cons, List.sum_cons, List.sum_cons] at same
    have here := head.weight_le
    have others := sum_weight_le tail
    exact .cons (by omega) (ih (by omega))

/-- Other marks for the literals at hand. -/
theorem WearsTo.of_flags (literals : clause.literals = old.literals)
    (dead : old.isDead = true → clause.isDead = true)
    (candidate : clause.isCandidate = old.isCandidate) : old.WearsTo clause where
  literals := by rw [literals]
  dead := dead
  stays isCandidate := candidate.trans isCandidate
  comes isCandidate := .inl (candidate.symm.trans isCandidate)
  shorter shorter := absurd (congrArg List.length literals) (Nat.ne_of_lt shorter)

/-- A live clause weighs what it has of literals. -/
theorem weight_of_live {arena : Arena} {handle : Handle} (live : arena.live? handle = some clause) :
    clause.weight = clause.size := by
  rw [weight, (Arena.live?_eq_some.1 live).2, if_neg Bool.false_ne_true]

end Clause

/-! ## Arenas -/

namespace Arena

variable {arena middle after : Arena} {handle : Handle} {clause : Clause}

/-- Every clause wears down or is left alone. -/
structure WearsTo (arena after : Arena) : Prop where
  epoch : after.epoch = arena.epoch
  slots : List.Forall₂ Clause.WearsTo arena.slots.toList after.slots.toList

theorem WearsTo.refl (arena : Arena) : arena.WearsTo arena :=
  ⟨rfl, List.forall₂_same.2 fun clause _ => .refl clause⟩

theorem WearsTo.trans (first : arena.WearsTo middle) (second : middle.WearsTo after) :
    arena.WearsTo after := by
  refine ⟨second.epoch.trans first.epoch, ?_⟩
  have chained : ∀ {a b c : List Clause}, List.Forall₂ Clause.WearsTo a b →
      List.Forall₂ Clause.WearsTo b c → List.Forall₂ Clause.WearsTo a c := by
    intro a b c first second
    induction first generalizing c with
    | nil => exact second
    | cons head _ ih =>
      cases second with
      | cons headAfter rest => exact .cons (head.trans headAfter) (ih rest)
  exact chained first.slots second.slots

/-- A clause gives way to what it comes to. -/
theorem WearsTo.of_set {new : Clause} (found : arena.slots[handle.index]? = some clause)
    (slots : after.slots = arena.slots.setIfInBounds handle.index new)
    (epoch : after.epoch = arena.epoch) (wears : clause.WearsTo new) : arena.WearsTo after := by
  refine ⟨epoch, ?_⟩
  rw [slots, Array.toList_setIfInBounds]
  rw [← Array.getElem?_toList] at found
  generalize arena.slots.toList = list at found
  generalize handle.index = place at found
  induction list generalizing place with
  | nil => exact .nil
  | cons first rest ih =>
    cases place with
    | zero =>
      obtain rfl : first = clause := by simpa using found
      exact .cons wears (List.forall₂_same.2 fun clause _ => .refl clause)
    | succ place => exact .cons (.refl first) (ih place (by simpa using found))

/-- What is there now was there before. -/
theorem WearsTo.old (wears : arena.WearsTo after) (found : after.get? handle = some clause) :
    ∃ old, arena.get? handle = some old ∧ old.WearsTo clause := by
  obtain ⟨current, inSlot⟩ := get?_eq_some.1 found
  obtain ⟨inside, rfl⟩ := Array.getElem?_eq_some_iff.1 inSlot
  have sizes := wears.slots.length_eq
  rw [Array.length_toList, Array.length_toList] at sizes
  have before : handle.index < arena.slots.size := sizes ▸ inside
  refine ⟨arena.slots[handle.index], get?_eq_some.2
    ⟨current.trans wears.epoch, Array.getElem?_eq_getElem before⟩, ?_⟩
  have pairs := (List.forall₂_iff_get.1 wears.slots).2 handle.index (by simpa using before)
    (by simpa using inside)
  simpa using pairs

/-- What was there is there still. -/
theorem WearsTo.new (wears : arena.WearsTo after) (found : arena.get? handle = some clause) :
    ∃ new, after.get? handle = some new ∧ clause.WearsTo new := by
  obtain ⟨current, inSlot⟩ := get?_eq_some.1 found
  have inside := (Array.getElem?_eq_some_iff.1 inSlot).1
  have sizes := wears.slots.length_eq
  rw [Array.length_toList, Array.length_toList] at sizes
  have insideAfter : handle.index < after.slots.size := sizes ▸ inside
  have stored : after.get? handle = some after.slots[handle.index] :=
    get?_eq_some.2 ⟨current.trans wears.epoch.symm, Array.getElem?_eq_getElem insideAfter⟩
  obtain ⟨old, foundOld, wearsOld⟩ := wears.old stored
  rw [found, Option.some.injEq] at foundOld
  subst foundOld
  exact ⟨_, stored, wearsOld⟩

/-- A live clause was live before. -/
theorem WearsTo.live_old (wears : arena.WearsTo after) (live : after.live? handle = some clause) :
    ∃ old, arena.live? handle = some old ∧ old.WearsTo clause := by
  obtain ⟨found, alive⟩ := live?_eq_some.1 live
  obtain ⟨old, foundOld, wearsOld⟩ := wears.old found
  refine ⟨old, live?_eq_some.2 ⟨foundOld, ?_⟩, wearsOld⟩
  cases dead : old.isDead with
  | false => rfl
  | true =>
    rw [wearsOld.dead dead] at alive
    cases alive

/-- The number of live literals. -/
def weight (arena : Arena) : Nat := (arena.slots.toList.map Clause.weight).sum

/-- The literals of live clauses are counted clause by clause. -/
theorem weight_eq_sum (arena : Arena) : arena.weight = (arena.contents.map List.length).sum := by
  unfold weight contents
  induction arena.slots.toList with
  | nil => rfl
  | cons clause rest ih =>
    rw [List.map_cons, List.sum_cons, ih, List.map_cons, List.sum_cons, Multiset.map_add,
      Multiset.sum_add, Clause.sum_content]

theorem WearsTo.weight_le (wears : arena.WearsTo after) : after.weight ≤ arena.weight :=
  Clause.sum_weight_le wears.slots

/-- Where as many literals are left, every clause has as many as before. -/
theorem WearsTo.weight_eq (wears : arena.WearsTo after) (same : after.weight = arena.weight)
    (found : arena.get? handle = some clause) :
    ∃ new, after.get? handle = some new ∧ clause.WearsTo new ∧ new.weight = clause.weight := by
  obtain ⟨new, foundNew, wearsNew⟩ := wears.new found
  refine ⟨new, foundNew, wearsNew, ?_⟩
  have pairs := Clause.weight_eq_of_sum_eq wears.slots same.ge
  obtain ⟨_, inSlot⟩ := get?_eq_some.1 found
  obtain ⟨_, inSlotNew⟩ := get?_eq_some.1 foundNew
  obtain ⟨inside, rfl⟩ := Array.getElem?_eq_some_iff.1 inSlot
  obtain ⟨insideNew, rfl⟩ := Array.getElem?_eq_some_iff.1 inSlotNew
  simpa using (List.forall₂_iff_get.1 pairs).2 handle.index (by simpa using inside)
    (by simpa using insideNew)

/-- Where a clause lost weight the arena did. -/
theorem WearsTo.weight_lt {new : Clause} (wears : arena.WearsTo after)
    (found : arena.get? handle = some clause) (foundNew : after.get? handle = some new)
    (lighter : new.weight < clause.weight) : after.weight < arena.weight := by
  refine lt_of_le_of_ne wears.weight_le fun same => ?_
  obtain ⟨other, foundOther, _, weight⟩ := wears.weight_eq same found
  rw [foundNew, Option.some.injEq] at foundOther
  subst foundOther
  exact absurd lighter (by omega)

end Arena

/-- The weight of an arena is its number of live literals. -/
theorem Engine.liveLiterals_eq_weight (engine : Engine) : engine.liveLiterals = engine.arena.weight := by
  have counts : ∀ (clauses : List Clause) (sum : Nat),
      clauses.foldl (fun sum clause => if clause.isDead then sum else sum + clause.size) sum =
        sum + (clauses.map Clause.weight).sum := by
    intro clauses
    induction clauses with
    | nil => simp
    | cons clause rest ih =>
      intro sum
      rw [List.foldl_cons, ih, List.map_cons, List.sum_cons]
      cases dead : clause.isDead with
      | true => simp [Clause.weight, dead]
      | false => simp [Clause.weight, dead, Nat.add_assoc]
  unfold liveLiterals Arena.weight
  rw [← Array.foldl_toList, counts, Nat.zero_add]

/-! ## Engines -/

/-- The mark of the clauses that wait in the queue. -/
def Clause.isQueued (clause : Clause) : Bool := clause.flags.queued

namespace Engine

variable {engine before middle after : Engine} {handle : Handle} {clause : Clause}

/-- The clauses wear down, and those that wait in the queue have the same mark as before. -/
structure WearsTo (before after : Engine) : Prop where
  arena : before.arena.WearsTo after.arena
  queued : after.arena.slots.map Clause.isQueued = before.arena.slots.map Clause.isQueued

theorem WearsTo.refl (engine : Engine) : engine.WearsTo engine := ⟨.refl _, rfl⟩

theorem WearsTo.trans (first : before.WearsTo middle) (second : middle.WearsTo after) :
    before.WearsTo after := ⟨first.arena.trans second.arena, second.queued.trans first.queued⟩

/-- A clause gives way to what it comes to, with the same mark. -/
theorem WearsTo.of_set {new : Clause} {arena : Arena}
    (found : engine.arena.slots[handle.index]? = some clause)
    (slots : arena.slots = engine.arena.slots.setIfInBounds handle.index new)
    (epoch : arena.epoch = engine.arena.epoch) (wears : clause.WearsTo new)
    (queued : new.isQueued = clause.isQueued) : engine.WearsTo { engine with arena := arena } := by
  refine ⟨.of_set found slots epoch wears, ?_⟩
  change arena.slots.map _ = _
  rw [slots, Array.map_setIfInBounds, queued]
  refine Array.ext_getElem? fun place => ?_
  rw [Array.getElem?_setIfInBounds]
  split
  next same =>
    subst same
    rw [Array.getElem?_map, found]
    split
    · rfl
    next outside =>
      have inside := (Array.getElem?_eq_some_iff.1 found).1
      rw [Array.size_map] at outside
      exact absurd inside outside
  next => rfl

/-- A clause that waits now waited before. -/
theorem WearsTo.queued_old (wears : before.WearsTo after)
    (live : after.arena.live? handle = some clause) :
    ∃ old, before.arena.live? handle = some old ∧ old.isQueued = clause.isQueued := by
  obtain ⟨old, liveOld, _⟩ := wears.arena.live_old live
  refine ⟨old, liveOld, ?_⟩
  obtain ⟨_, slot⟩ := Arena.get?_eq_some.1 (Arena.live?_eq_some.1 live).1
  obtain ⟨_, slotOld⟩ := Arena.get?_eq_some.1 (Arena.live?_eq_some.1 liveOld).1
  have same := congrArg (fun marks => marks[handle.index]?) wears.queued
  simp only [Array.getElem?_map, slot, slotOld, Option.map_some, Option.some.injEq] at same
  exact same.symm

/-- Removing, shortening and promoting clauses wears them down. -/
instance : Tolerant WearsTo where
  refl := .refl
  trans := .trans
  aside arena _ _ := by
    refine ⟨arena ▸ .refl _, ?_⟩
    rw [arena]
  removes {engine handle arena} removed := by
    cases found : engine.arena.get? handle with
    | none =>
      rw [Arena.remove, found] at removed
      cases removed
    | some clause =>
      obtain ⟨slots, epoch, _⟩ := Arena.slots_remove found removed
      exact .of_set (Arena.get?_eq_some.1 found).2 slots epoch (.of_flags rfl (fun _ => rfl) rfl) rfl
  strengthens {engine handle literal length arena} changed := by
    cases found : engine.arena.get? handle with
    | none =>
      rw [Arena.strengthen, found] at changed
      cases changed
    | some clause =>
      have inSlot := (Arena.get?_eq_some.1 found).2
      by_cases inside : clause.contains literal = true
      · simp only [Arena.strengthen, found, if_pos inside, Option.some.injEq, Prod.mk.injEq] at changed
        rw [← changed.2]
        have member : literal ∈ clause.literals := by simpa [Clause.contains] using inside
        have shorter : (clause.literals.erase literal).length < clause.literals.length := by
          rw [List.length_erase_of_mem member]
          have some_ := List.length_pos_of_mem member
          omega
        exact .of_set inSlot rfl rfl
          ⟨List.erase_sublist, id, fun _ => rfl, fun _ => .inr shorter, fun _ => rfl⟩ rfl
      · simp only [Arena.strengthen, found, if_neg inside, Option.some.injEq, Prod.mk.injEq] at changed
        rw [← changed.2]
        exact .refl engine
  promotes {engine handle arena} promoted := by
    unfold Arena.makeIrredundant at promoted
    split at promoted
    · cases promoted
    next clause inSlot =>
      split at promoted
      · cases promoted
        exact .of_set inSlot rfl rfl (.of_flags rfl id rfl) rfl
      · cases promoted
        exact .refl engine
  assigns engine literal := Run.Ends.trivial.imp (fun _ _ _ => ⟨.refl _, rfl⟩)
    fun _ _ _ => ⟨.refl _, rfl⟩

/-! ## Marks -/

/-- A clause got other marks, and nothing else happened. -/
structure Marks (engine : Engine) (handle : Handle) (clause : Clause)
    (change : ClauseFlags → ClauseFlags) (after : Engine) : Prop where
  rest : after = { engine with arena := after.arena }
  slots : after.arena.slots = engine.arena.slots.setIfInBounds handle.index
    { clause with flags := change clause.flags }
  epoch : after.arena.epoch = engine.arena.epoch

variable {change : ClauseFlags → ClauseFlags}

/-- A clause is marked. -/
theorem markClause_marks (found : engine.arena.get? handle = some clause) :
    (markClause handle change).Returns engine fun _ after => engine.Marks handle clause change after := by
  let arena := engine.arena.setSlot handle.index { clause with flags := change clause.flags }
  have marked : engine.arena.mark handle change = some arena := by
    rw [Arena.mark, found]
  exact .of_done (markClause_of_mark marked) ⟨rfl, rfl, rfl⟩

namespace Marks

variable (marks : engine.Marks handle clause change after)
  (found : engine.arena.get? handle = some clause)

include marks found

theorem get?_self : after.arena.get? handle = some { clause with flags := change clause.flags } :=
  Arena.get?_self_of_slots found marks.slots marks.epoch

theorem get?_of_ne {other : Handle} (different : other ≠ handle) :
    after.arena.get? other = engine.arena.get? other :=
  Arena.get?_of_slots found marks.slots marks.epoch different

/-- If the candidates stay the same, clauses wear down. -/
theorem wearsTo (wears : clause.WearsTo { clause with flags := change clause.flags }) :
    engine.arena.WearsTo after.arena :=
  .of_set (Arena.get?_eq_some.1 found).2 marks.slots marks.epoch wears

/-- Live clauses have the same literals, and the others have the same marks too. -/
theorem live_old (dead : (change clause.flags).dead = clause.flags.dead) {other : Handle}
    {copy : Clause} (live : after.arena.live? other = some copy) :
    (other = handle ∧ engine.arena.live? handle = some clause ∧
      copy = { clause with flags := change clause.flags }) ∨
    (other ≠ handle ∧ engine.arena.live? other = some copy) := by
  obtain ⟨foundCopy, alive⟩ := Arena.live?_eq_some.1 live
  by_cases same : other = handle
  · subst same
    rw [marks.get?_self found, Option.some.injEq] at foundCopy
    subst foundCopy
    exact .inl ⟨rfl, Arena.live?_eq_some.2 ⟨found, dead.symm.trans alive⟩, rfl⟩
  · rw [marks.get?_of_ne found same] at foundCopy
    exact .inr ⟨same, Arena.live?_eq_some.2 ⟨foundCopy, alive⟩⟩

end Marks

end Engine

end CnfSimplifier
