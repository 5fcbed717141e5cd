import CnfSimplifier.Proofs.HeapOrder
import Mathlib.Data.Finset.Card
import Mathlib.Order.Interval.Finset.Nat

/-!
# The heap over a history of calls

Variables are put into the heap and taken out of it, and the occurrences may be others at every
call. Which variables are in the heap is told from the calls alone. Which one comes first is told
from the ranks at the time, as long as the order is repaired in time: a variable in the heap whose
rank has changed is put in again before anything else happens. One variable may be out of place
when it is put in, since it moves up or down from there; two of them need not find their places.
-/
namespace CnfSimplifier.VarHeap

variable {count : Nat} {names : Finset Nat} {heap after : VarHeap} {index earlier : Occurrences}
  {name spot : Nat}

/-! ## The variables in the heap -/

/-- Variables and places are the inverse of each other, and some variables are in the heap. -/
structure Holds (count : Nat) (names : Finset Nat) (heap : VarHeap) : Prop
    extends Inverse count heap where
  has_iff : ∀ name, heap.Has name ↔ name ∈ names

/-- Only one variable may be out of order, if it is in the heap at all. -/
def OrderedBut (index : Occurrences) (heap : VarHeap) (name : Nat) : Prop :=
  ∀ spot, heap.place[name]? = some spot → HeapedBut heap.size (rankAt index heap) spot

theorem Rearranges.holds (rearranges : Rearranges count heap after)
    (has_iff : ∀ name, heap.Has name ↔ name ∈ names) : after.Holds count names :=
  ⟨rearranges.inverse, fun name => (rearranges.has_iff name).trans (has_iff name)⟩

/-- A variable is in the heap if its place is. -/
theorem Inverse.has_iff_place (inverse : heap.Inverse count) (present : 0 < name)
    (found : heap.place[name]? = some spot) : heap.Has name ↔ spot ≤ heap.size := by
  have stands := inverse.order_of_place name spot present found
  have onPlace := inverse.place name spot present found
  constructor
  · rintro ⟨other, otherOnPlace, inside, atOther⟩
    exact inverse.spot_unique onPlace otherOnPlace stands atOther ▸ inside
  · intro inside
    exact ⟨spot, onPlace, inside, stands⟩

/-- A heap without variables is in order. -/
theorem ordered_of_size_eq_zero (empty : heap.size = 0) : heap.Ordered index := by
  intro spot second inside
  omega

namespace Holds

/-- The heap tells which names it has. -/
theorem contains?_eq (holds : heap.Holds count names) (present : 0 < name) (small : name < count) :
    heap.contains? name = some (decide (name ∈ names)) := by
  obtain ⟨spot, found, _, _⟩ := holds.exists_place present small
  have inside := (holds.has_iff_place present found).symm.trans (holds.has_iff name)
  rw [contains?, found, Option.map_some, decide_eq_decide.2 inside]

theorem range (holds : heap.Holds count names) (member : name ∈ names) : 0 < name ∧ name < count := by
  obtain ⟨spot, onPlace, inside, found⟩ := (holds.has_iff name).2 member
  exact holds.known onPlace found

/-- The places of the heap are filled with its variables, each of them once. -/
theorem size_eq (holds : heap.Holds count names) : heap.size = names.card := by
  have bound := holds.size_lt
  have entry : ∀ spot ∈ Finset.Icc 1 heap.size, 0 < spot ∧ spot ≤ heap.size ∧
      heap.order[spot]? = some ((heap.order[spot]?).getD 0) := by
    intro spot member
    obtain ⟨onPlace, inside⟩ := Finset.mem_Icc.1 member
    obtain ⟨name, found, _, _⟩ := holds.exists_order onPlace (by omega : spot < count)
    exact ⟨onPlace, inside, by rw [found, Option.getD_some]⟩
  have images : (Finset.Icc 1 heap.size).image (fun spot => (heap.order[spot]?).getD 0) = names := by
    ext name
    rw [Finset.mem_image, ← holds.has_iff]
    constructor
    · rintro ⟨spot, member, rfl⟩
      exact ⟨spot, entry spot member⟩
    · rintro ⟨spot, onPlace, inside, found⟩
      exact ⟨spot, Finset.mem_Icc.2 ⟨onPlace, inside⟩, by rw [found, Option.getD_some]⟩
  have distinct : Set.InjOn (fun spot => (heap.order[spot]?).getD 0)
      (SetLike.coe (Finset.Icc 1 heap.size)) := by
    intro spot member other memberOther same
    obtain ⟨onPlace, _, found⟩ := entry spot (Finset.mem_coe.1 member)
    obtain ⟨otherOnPlace, _, foundOther⟩ := entry other (Finset.mem_coe.1 memberOther)
    exact holds.spot_unique onPlace otherOnPlace found (foundOther.trans (congrArg some same.symm))
  rw [← images, Finset.card_image_of_injOn distinct, Nat.card_Icc, Nat.add_sub_cancel]

/-- The rank of a variable in the heap is the same at two times. -/
theorem rankAt_eq (holds : heap.Holds count names)
    (same : ∀ other ∈ names, other ≠ name → rank index other = rank earlier other)
    (found : heap.place[name]? = some spot) {other : Nat} (onPlace : 0 < other)
    (inside : other ≤ heap.size) (different : other ≠ spot) :
    rankAt index heap other = rankAt earlier heap other := by
  have bound := holds.size_lt
  obtain ⟨known, stands, _, _⟩ := holds.exists_order onPlace (by omega : other < count)
  rw [rankAt_of_order stands, rankAt_of_order stands]
  refine same known ((holds.has_iff known).1 ⟨other, onPlace, inside, stands⟩) ?_
  rintro rfl
  have place := holds.place_of_order other known onPlace stands
  exact different (Option.some.inj (place.symm.trans found))

/-- Where one rank has changed, the rest is in order. -/
theorem orderedBut (holds : heap.Holds count names) (ordered : heap.Ordered earlier)
    (same : ∀ other ∈ names, other ≠ name → rank index other = rank earlier other) :
    heap.OrderedBut index name := by
  intro spot found
  have but := ordered.but spot
  refine ⟨fun other second inside notSpot notChild => ?_, fun other inside isChild second => ?_⟩
  · rw [holds.rankAt_eq same found (by omega : 0 < other / 2) (by omega) notChild,
      holds.rankAt_eq same found (by omega) inside notSpot]
    exact but.apart other second inside notSpot notChild
  · rw [holds.rankAt_eq same found (by omega : 0 < spot / 2) (by omega) (by omega),
      holds.rankAt_eq same found (by omega) inside (by omega : other ≠ spot)]
    exact but.across other inside isChild second

/-- Where no rank has changed, everything is in order. -/
theorem ordered (holds : heap.Holds count names) (ordered : heap.Ordered earlier)
    (same : ∀ other ∈ names, rank index other = rank earlier other) : heap.Ordered index := by
  have bound := holds.size_lt
  have entry : ∀ spot, 0 < spot → spot ≤ heap.size →
      rankAt index heap spot = rankAt earlier heap spot := by
    intro spot onPlace inside
    obtain ⟨name, found, _, _⟩ := holds.exists_order onPlace (by omega : spot < count)
    rw [rankAt_of_order found, rankAt_of_order found]
    exact same name ((holds.has_iff name).1 ⟨spot, onPlace, inside, found⟩)
  intro spot second inside
  rw [entry spot (by omega) inside, entry (spot / 2) (by omega) (by omega)]
  exact ordered spot second inside

end Holds

/-! ## What a call leaves -/

/-- One more place is taken, by a variable behind the others. -/
theorem Holds.take (holds : heap.Holds count names) (present : 0 < name)
    (found : heap.place[name]? = some spot) (outside : heap.size < spot) :
    ∃ after, heap.exchange spot (heap.size + 1) = some after ∧
      Holds count (Insert.insert name names) { after with size := heap.size + 1 } ∧
      after.order[heap.size + 1]? = some name ∧
      ∀ k : Nat, k ≤ heap.size → after.order[k]? = heap.order[k]? := by
  have onPlace : 0 < spot := by omega
  have inside := holds.place_lt name spot found
  have stands := holds.order_of_place name spot present found
  obtain ⟨after, exchanged, inverse, size, order⟩ :=
    holds.exchange onPlace inside (Nat.succ_pos heap.size) (by omega : heap.size + 1 < count)
  have atLast : after.order[heap.size + 1]? = some name := by rw [order, if_pos rfl, stands]
  have before : ∀ k : Nat, k ≤ heap.size → after.order[k]? = heap.order[k]? := by
    intro k within
    rw [order, if_neg (by omega), if_neg (by omega)]
  refine ⟨after, exchanged, ⟨⟨inverse.with_size (by omega), inverse.place_of_order,
    inverse.order_of_place⟩, fun other => ?_⟩, atLast, before⟩
  rw [Finset.mem_insert, ← holds.has_iff]
  constructor
  · rintro ⟨k, positive, within, atPlace⟩
    dsimp only at within atPlace
    by_cases isLast : k = heap.size + 1
    · subst isLast
      exact .inl (Option.some.inj (atPlace.symm.trans atLast))
    · exact .inr ⟨k, positive, by omega, by rw [← before k (by omega), atPlace]⟩
  · rintro (rfl | ⟨k, positive, within, atPlace⟩)
    · exact ⟨heap.size + 1, Nat.succ_pos _, le_rfl, atLast⟩
    · exact ⟨k, positive, Nat.le_succ_of_le within, (before k within).trans atPlace⟩

/-- A variable that is put in is in the heap afterwards, and at its place if nothing else was out
of order. -/
theorem insert_returns (compares : Compares index count) (holds : heap.Holds count names)
    (present : 0 < name) (small : name < count) :
    (insert index name).Returns heap fun _ after => after.Holds count (Insert.insert name names) ∧
      (heap.OrderedBut index name → after.Ordered index) := by
  obtain ⟨spot, found, onPlace, _⟩ := holds.exists_place present small
  have isHere := holds.has_iff_place present found
  unfold VarHeap.insert
  refine .step (Run.read_of_eq_some (holds.contains?_eq present small)) ?_
  split
  next contained =>
    have member := of_decide_eq_true contained
    refine .step (Run.read_of_eq_some found) ?_
    refine (percolateUp_returns compares holds.toInverse onPlace
      (isHere.1 ((holds.has_iff name).2 member)) (holds.order_of_place name spot present found)).bind
      fun _ middle risen => ?_
    obtain ⟨top, topOnPlace, topInside, stands, orderedUp⟩ := risen.stands
    have atTop := risen.inverse.place_of_order top name topOnPlace stands
    refine .step (Run.read_of_eq_some atTop) ?_
    refine (percolateDown_returns compares risen.inverse topOnPlace topInside).imp
      fun _ after sunk => ⟨?_, fun but => ?_⟩
    · rw [Finset.insert_eq_of_mem member]
      exact (risen.toRearranges.trans sunk.toRearranges).holds holds.has_iff
    · obtain ⟨butMiddle, below, _⟩ := orderedUp (but spot found)
      exact sunk.ordered butMiddle below
  next absent =>
    have outside : heap.size < spot := by
      refine not_le.1 fun inside => absent (decide_eq_true ?_)
      exact (holds.has_iff name).1 (isHere.2 inside)
    obtain ⟨middle, exchanged, holdsMiddle, atLast, before⟩ := holds.take present found outside
    refine .step (Run.read_of_eq_some found) (.step rfl ?_)
    refine .step (Run.update_of_eq_some exchanged) (.step rfl ?_)
    refine (percolateUp_returns compares holdsMiddle.toInverse (Nat.succ_pos heap.size) le_rfl
      atLast).imp fun _ after risen => ⟨risen.toRearranges.holds holdsMiddle.has_iff, fun but => ?_⟩
    obtain ⟨top, _, _, _, orderedUp⟩ := risen.stands
    have behind := but spot found
    -- The new variable has no children, and the pairs before it are as they were.
    have entry : ∀ k, k ≤ heap.size →
        rankAt index { middle with size := heap.size + 1 } k = rankAt index heap k :=
      fun k within => rankAt_congr (before k within)
    obtain ⟨butAfter, below, above⟩ := orderedUp
      ⟨fun k second inside notLast notChild => by
        dsimp only at inside
        rw [entry k (by omega), entry (k / 2) (by omega)]
        exact behind.apart k second (by omega) (by omega) (by omega),
      fun k inside isChild _ => by
        dsimp only at inside
        omega⟩
    exact butAfter.heaped below (above fun k _ inside isChild => by
      dsimp only at inside
      omega)

/-- The variable in front moves behind the others. -/
theorem Holds.drop (holds : heap.Holds count names) (nonempty : 0 < heap.size)
    (found : heap.order[1]? = some name) :
    ∃ after, heap.exchange heap.size 1 = some after ∧
      Holds count (names.erase name) { after with size := heap.size - 1 } ∧
      ∀ k : Nat, 1 < k → k < heap.size → after.order[k]? = heap.order[k]? := by
  obtain ⟨after, exchanged, inverse, size, order⟩ := holds.exchange nonempty holds.size_lt
    Nat.one_pos (by have := holds.size_lt; omega : 1 < count)
  have bound := holds.size_lt
  refine ⟨after, exchanged, ⟨⟨inverse.with_size (by omega), inverse.place_of_order,
    inverse.order_of_place⟩, fun other => ?_⟩, fun k second within => ?_⟩
  · rw [Finset.mem_erase, ← holds.has_iff]
    constructor
    · rintro ⟨k, positive, within, atPlace⟩
      dsimp only at within atPlace
      rw [order] at atPlace
      split at atPlace
      next first =>
        refine ⟨?_, heap.size, nonempty, le_rfl, atPlace⟩
        rintro rfl
        have := holds.spot_unique nonempty Nat.one_pos atPlace found
        omega
      next notFirst =>
        rw [if_neg (by omega)] at atPlace
        refine ⟨?_, k, positive, by omega, atPlace⟩
        rintro rfl
        exact notFirst (holds.spot_unique positive Nat.one_pos atPlace found)
    · rintro ⟨different, k, positive, within, atPlace⟩
      have notFirst : k ≠ 1 := by
        rintro rfl
        exact different (Option.some.inj (atPlace.symm.trans found))
      by_cases isLast : k = heap.size
      · refine ⟨1, Nat.one_pos, by dsimp only; omega, ?_⟩
        dsimp only
        rw [order, if_pos rfl, ← isLast, atPlace]
      · refine ⟨k, positive, by dsimp only; omega, ?_⟩
        dsimp only
        rw [order, if_neg notFirst, if_neg isLast, atPlace]
  · rw [order, if_neg (by omega), if_neg (by omega)]

/-- What taking a variable out gives. -/
structure Selects (index : Occurrences) (count : Nat) (names : Finset Nat) (heap : VarHeap)
    (name : Nat) (after : VarHeap) : Prop extends Holds count (names.erase name) after where
  member : name ∈ names
  least : heap.Ordered index → ∀ other ∈ names, rank index name ≤ rank index other
  ordered : heap.Ordered index → after.Ordered index

/-- A variable is taken out whenever there is one, and it is the first one of a heap in order. -/
theorem select_returns (compares : Compares index count) (holds : heap.Holds count names) :
    (select index).Returns heap fun found after =>
      (found = none ∧ names = ∅ ∧ after = heap) ∨
        ∃ name, found = some name ∧ Selects index count names heap name after := by
  have bound := holds.size_lt
  have isLast : (if heap.place.isEmpty then none else some heap.size) = some heap.size := by
    refine if_neg ?_
    rw [Array.isEmpty_iff_size_eq_zero, holds.places]
    omega
  unfold select
  refine .step (Run.read_of_eq_some isLast) ?_
  split
  next empty => exact .pure (.inl ⟨rfl, Finset.card_eq_zero.1 (holds.size_eq.symm.trans empty), rfl⟩)
  next nonempty =>
    have nonempty : 0 < heap.size := Nat.pos_of_ne_zero nonempty
    obtain ⟨first, atFirst, _, _⟩ := holds.exists_order Nat.one_pos (by omega : 1 < count)
    obtain ⟨middle, exchanged, holdsMiddle, between⟩ := holds.drop nonempty atFirst
    refine .step (Run.read_of_eq_some atFirst) ?_
    refine .step (Run.update_of_eq_some exchanged) (.step rfl ?_)
    have member : first ∈ names := (holds.has_iff first).1 ⟨1, Nat.one_pos, nonempty, atFirst⟩
    have least : heap.Ordered index → ∀ other ∈ names, rank index first ≤ rank index other := by
      intro ordered other member
      obtain ⟨spot, onPlace, inside, found⟩ := (holds.has_iff other).2 member
      rw [← rankAt_of_order atFirst, ← rankAt_of_order found]
      exact ordered.least onPlace inside
    split
    next several =>
      refine (percolateDown_returns compares holdsMiddle.toInverse Nat.one_pos
        (by dsimp only; omega)).bind fun _ after sunk => .pure (.inr ⟨first, rfl, ?_⟩)
      refine ⟨sunk.toRearranges.holds holdsMiddle.has_iff, member, least, fun ordered => ?_⟩
      -- Only the first place has another variable.
      have entry : ∀ k, 1 < k → k < heap.size →
          rankAt index { middle with size := heap.size - 1 } k = rankAt index heap k :=
        fun k second within => rankAt_congr (between k second within)
      refine sunk.ordered ⟨fun k second inside notFirst notChild => ?_, fun k _ _ second => ?_⟩ ?_
      · dsimp only at inside
        rw [entry k (by omega) (by omega), entry (k / 2) (by omega) (by omega)]
        exact ordered k second (by omega)
      · omega
      · intro second
        omega
    next few =>
      refine .step rfl (.pure (.inr ⟨first, rfl, holdsMiddle, member, least, fun _ => ?_⟩))
      intro k second inside
      dsimp only at inside
      omega

/-- New entries stand for themselves. -/
theorem getElem?_append_range' {entries : Array Nat} (sized : entries.size = count)
    {room k value : Nat} :
    (entries ++ (List.range' count (room - count)).toArray)[k]? = some value ↔
      entries[k]? = some value ∨ (count ≤ k ∧ k < room ∧ value = k) := by
  subst sized
  rw [Array.getElem?_append]
  split
  next old =>
    constructor
    · exact .inl
    · rintro (found | ⟨beyond, _⟩)
      · exact found
      · omega
  next new =>
    have absent : entries[k]? = none := Array.getElem?_eq_none (not_lt.1 new)
    rw [absent, List.getElem?_toArray]
    by_cases inside : k < room
    · rw [List.getElem?_range' (by omega)]
      have same : entries.size + 1 * (k - entries.size) = k := by omega
      rw [same]
      constructor
      · intro found
        exact .inr ⟨not_lt.1 new, inside, (Option.some.inj found).symm⟩
      · rintro (impossible | ⟨_, _, rfl⟩)
        · cases impossible
        · rfl
    · rw [List.getElem?_eq_none (by rw [List.length_range']; omega)]
      constructor
      · intro impossible
        cases impossible
      · rintro (impossible | ⟨_, within, _⟩)
        · cases impossible
        · omega

/-- New variables wait behind the others. -/
theorem Holds.expand (holds : heap.Holds count names) (numVars : Nat) :
    (heap.expand numVars).Holds (max count (numVars + 1)) names := by
  have bound := holds.size_lt
  have order : ∀ k value : Nat, (heap.expand numVars).order[k]? = some value ↔
      heap.order[k]? = some value ∨ (count ≤ k ∧ k < numVars + 1 ∧ value = k) := by
    intro k value
    rw [← getElem?_append_range' holds.orders, VarHeap.expand, holds.orders]
  have place : ∀ k value : Nat, (heap.expand numVars).place[k]? = some value ↔
      heap.place[k]? = some value ∨ (count ≤ k ∧ k < numVars + 1 ∧ value = k) := by
    intro k value
    rw [← getElem?_append_range' holds.places, VarHeap.expand, holds.orders]
  have size : ∀ entries : Array Nat, entries.size = count →
      (entries ++ (List.range' heap.order.size (numVars + 1 - heap.order.size)).toArray).size =
        max count (numVars + 1) := by
    intro entries same
    rw [Array.size_append, same, holds.orders, List.size_toArray, List.length_range']
    omega
  have positive : 0 < count := by omega
  refine ⟨⟨⟨⟨?_, ?_⟩, size _ holds.orders, size _ holds.places, ?_, ?_, ?_⟩, ?_, ?_⟩, ?_⟩
  · intro k found onPlace atPlace
    obtain old | ⟨_, _, rfl⟩ := (order k found).1 atPlace
    · exact holds.order k found onPlace old
    · exact onPlace
  · intro k found present atName
    obtain old | ⟨_, _, rfl⟩ := (place k found).1 atName
    · exact holds.place k found present old
    · exact present
  · intro k found atPlace
    obtain old | ⟨_, within, rfl⟩ := (order k found).1 atPlace
    · exact lt_max_of_lt_left (holds.order_lt k found old)
    · exact lt_max_of_lt_right within
  · intro k found atName
    obtain old | ⟨_, within, rfl⟩ := (place k found).1 atName
    · exact lt_max_of_lt_left (holds.place_lt k found old)
    · exact lt_max_of_lt_right within
  · exact lt_max_of_lt_left bound
  · intro k found onPlace atPlace
    obtain old | ⟨beyond, within, rfl⟩ := (order k found).1 atPlace
    · exact (place found k).2 (.inl (holds.place_of_order k found onPlace old))
    · exact (place found found).2 (.inr ⟨beyond, within, rfl⟩)
  · intro k found present atName
    obtain old | ⟨beyond, within, rfl⟩ := (place k found).1 atName
    · exact (order found k).2 (.inl (holds.order_of_place k found present old))
    · exact (order found found).2 (.inr ⟨beyond, within, rfl⟩)
  · intro name
    rw [← holds.has_iff]
    constructor
    · rintro ⟨k, onPlace, inside, found⟩
      obtain old | ⟨beyond, _⟩ := (order k name).1 found
      · exact ⟨k, onPlace, inside, old⟩
      · exact absurd (Nat.lt_of_le_of_lt inside bound) (not_lt.2 beyond)
    · rintro ⟨k, onPlace, inside, found⟩
      exact ⟨k, onPlace, inside, (order k name).2 (.inl found)⟩

/-- A heap with more variables is ordered as before. -/
theorem Holds.ordered_expand (holds : heap.Holds count names) (ordered : heap.Ordered index)
    (numVars : Nat) : (heap.expand numVars).Ordered index := by
  have bound := holds.size_lt
  have entry : ∀ k, k ≤ heap.size →
      rankAt index (heap.expand numVars) k = rankAt index heap k := by
    intro k inside
    have old : k < heap.order.size := by
      rw [holds.orders]
      omega
    exact rankAt_congr (Array.getElem?_append_left old)
  intro k second inside
  have within : k ≤ heap.size := inside
  rw [entry k within, entry (k / 2) (by omega)]
  exact ordered k second within

/-- An emptied heap is as at the beginning. -/
theorem clear_eq {numVars : Nat} (sized : heap.Sized (numVars + 1)) :
    heap.clear = some (ofVars numVars) := by
  have nonempty : ¬ heap.place.isEmpty = true := by
    rw [Array.isEmpty_iff_size_eq_zero, sized.places]
    exact Nat.succ_ne_zero numVars
  rw [clear, if_neg nonempty, sized.orders, sized.places]
  rfl

/-- A heap that ranges over nothing comes to be as at the beginning. -/
theorem expand_empty (numVars : Nat) : ({} : VarHeap).expand numVars = ofVars numVars := by
  have range : (List.range' 0 (numVars + 1)).toArray = Array.range (numVars + 1) := by
    rw [← List.range_eq_range', List.toArray_range]
  unfold VarHeap.expand ofVars
  simp [range]

/-- A new heap holds nothing. -/
theorem holds_ofVars (numVars : Nat) : (ofVars numVars).Holds (numVars + 1) ∅ := by
  have sized : (ofVars numVars).Sized (numVars + 1) := ⟨Array.size_range, Array.size_range⟩
  have range : ∀ k value : Nat, (Array.range (numVars + 1))[k]? = some value →
      (Array.range (numVars + 1))[value]? = some k := by
    intro k value found
    obtain ⟨_, rfl⟩ := Array.getElem?_eq_some_iff.1 found
    rwa [Array.getElem_range] at found ⊢
  refine ⟨⟨sized.ranges_clear (clear_eq sized), fun k value _ => range k value,
    fun k value _ => range k value⟩, fun name =>
    ⟨?_, fun member => absurd member (Finset.notMem_empty name)⟩⟩
  rintro ⟨k, onPlace, inside, _⟩
  exact absurd (Nat.lt_of_lt_of_le onPlace inside) (Nat.lt_irrefl 0)

/-! ## Histories -/

/-- What is asked of a heap. -/
inductive Operation where
  /-- A variable is put in, or back in order. -/
  | insert (name : Nat)
  /-- The first variable is taken out. -/
  | select
  /-- The heap is to range over at least so many variables. -/
  | expand (numVars : Nat)
  /-- All variables are taken out. -/
  | clear
deriving DecidableEq

/-- Do what is asked. Only the selection has an answer. -/
def perform (index : Occurrences) : Operation → Run VarHeap (Option Nat)
  | .insert name => do
    insert index name
    return none
  | .select => select index
  | .expand numVars => do
    modify fun heap => heap.expand numVars
    return none
  | .clear => do
    Run.update fun heap => heap.clear
    return none

/-- A call: the occurrences at the time, what was asked, and the answer. -/
structure Call where
  index : Occurrences
  operation : Operation
  answer : Option Nat := none

/-- How many variables the heap ranges over after some calls, the last one first. -/
def widest (start : Nat) : List Call → Nat
  | [] => start
  | call :: calls => match call.operation with
    | .expand numVars => max (widest start calls) numVars
    | .insert _ | .select | .clear => widest start calls

/-- The variables that were put in and neither taken out nor cleared since, the last call first. -/
def contained : List Call → Finset Nat
  | [] => ∅
  | call :: calls => match call.operation with
    | .insert name => Insert.insert name (contained calls)
    | .select => match call.answer with
      | some name => (contained calls).erase name
      | none => contained calls
    | .expand _ => contained calls
    | .clear => ∅

/-- What may be asked of a heap over some variables: only these are put in, and when variables
are compared their occurrences are known. -/
def Admits (numVars : Nat) (index : Occurrences) : Operation → Prop
  | .insert name => 0 < name ∧ name ≤ numVars ∧ Compares index (numVars + 1)
  | .select => Compares index (numVars + 1)
  | .expand _ => True
  | .clear => True

/-- The heaps that calls lead to, from one over a number of variables, the last call first. -/
inductive History (start : Nat) : List Call → VarHeap → Prop where
  /-- A new heap is empty. -/
  | new : History start [] (ofVars start)
  /-- So is one that ranged over nothing and was expanded. -/
  | grown : History start [] (({} : VarHeap).expand start)
  /-- Something that may be asked is done, with whatever occurrences there are by now. -/
  | call {calls : List Call} {heap after : VarHeap} {index : Occurrences} {operation : Operation}
      {answer : Option Nat} (history : History start calls heap)
      (admits : Admits (widest start calls) index operation)
      (done : perform index operation heap = .done answer after) :
      History start (⟨index, operation, answer⟩ :: calls) after

/-- The occurrences change with care: at every call the variables in the heap have the ranks they
had at the call before, unless it is the call that puts the changed variable in again. -/
def Careful : List Call → Prop
  | [] => True
  | call :: calls => Careful calls ∧ ∀ last ∈ calls.head?, ∀ name ∈ contained calls,
    rank call.index name = rank last.index name ∨ call.operation = .insert name

/-- What is known of a heap from the calls alone. -/
structure Tells (start : Nat) (calls : List Call) (heap : VarHeap) : Prop where
  holds : heap.Holds (widest start calls + 1) (contained calls)
  ordered : Careful calls → ∀ last ∈ calls.head?, heap.Ordered last.index

variable {start numVars : Nat} {calls : List Call} {operation : Operation} {answer : Option Nat}

namespace Tells

/-- Before the next call at most the variable that is put in now is out of order. -/
theorem orderedBut (tells : Tells start calls heap)
    (careful : Careful (⟨index, .insert name, answer⟩ :: calls)) : heap.OrderedBut index name := by
  obtain ⟨careful, same⟩ := careful
  cases calls with
  | nil =>
    have ordered : heap.Ordered index := ordered_of_size_eq_zero tells.holds.size_eq
    exact fun spot _ => ordered.but spot
  | cons last calls =>
    refine tells.holds.orderedBut (tells.ordered careful last rfl) fun other member different => ?_
    refine (same last rfl other member).resolve_right fun again => ?_
    exact different (Operation.insert.inj again).symm

/-- Before a call that puts nothing in everything is in order. -/
theorem ordered_now (tells : Tells start calls heap)
    (careful : Careful (⟨index, operation, answer⟩ :: calls))
    (other : ∀ name, operation ≠ .insert name) : heap.Ordered index := by
  obtain ⟨careful, same⟩ := careful
  cases calls with
  | nil => exact ordered_of_size_eq_zero tells.holds.size_eq
  | cons last calls =>
    refine tells.holds.ordered (tells.ordered careful last rfl) fun name member => ?_
    exact (same last rfl name member).resolve_right (other name)

/-- A call leaves what the calls up to it tell. -/
theorem perform_returns (tells : Tells start calls heap)
    (admits : Admits (widest start calls) index operation) :
    (perform index operation).Returns heap fun answer after =>
      Tells start (⟨index, operation, answer⟩ :: calls) after := by
  cases operation with
  | insert name =>
    obtain ⟨present, within, compares⟩ := admits
    refine (insert_returns compares tells.holds present (Nat.lt_succ_of_le within)).bind
      fun _ after inserted => .pure ⟨inserted.1, fun careful last isLast => ?_⟩
    obtain rfl := Option.some.inj isLast
    exact inserted.2 (tells.orderedBut careful)
  | select =>
    refine (select_returns admits tells.holds).imp fun answer after selected => ?_
    obtain ⟨rfl, _, rfl⟩ | ⟨name, rfl, selects⟩ := selected
    · refine ⟨tells.holds, fun careful last isLast => ?_⟩
      obtain rfl := Option.some.inj isLast
      exact tells.ordered_now careful nofun
    · refine ⟨selects.toHolds, fun careful last isLast => ?_⟩
      obtain rfl := Option.some.inj isLast
      exact selects.ordered (tells.ordered_now careful nofun)
  | expand numVars =>
    refine .step rfl (.pure ⟨?_, fun careful last isLast => ?_⟩)
    · have holds := tells.holds.expand numVars
      rwa [Nat.add_max_add_right] at holds
    · obtain rfl := Option.some.inj isLast
      exact tells.holds.ordered_expand (tells.ordered_now careful nofun) numVars
  | clear =>
    refine .step (Run.update_of_eq_some (clear_eq tells.holds.sized)) (.pure ⟨?_, fun _ _ _ => ?_⟩)
    · exact holds_ofVars _
    · exact ordered_of_size_eq_zero rfl

end Tells

/-- Every history tells what is in the heap. -/
theorem History.tells (history : History start calls heap) : Tells start calls heap := by
  induction history with
  | new => exact ⟨holds_ofVars start, nofun⟩
  | grown =>
    rw [expand_empty]
    exact ⟨holds_ofVars start, nofun⟩
  | call history admits done ih =>
    obtain ⟨answer, after, ended, tells⟩ := ih.perform_returns admits
    cases ended.symm.trans done
    exact tells

/-- Whatever the occurrences are at each call, the two arrays of the heap stay the inverse of each
other, the variables in it are those that the calls tell, and every call that may be made is done. A
selection answers a variable whenever there is one. If the occurrences change with care it is the
one of the least rank. -/
theorem History.selects_least (history : History start calls heap) :
    heap.Inverse (widest start calls + 1) ∧
    (∀ name, 0 < name → name ≤ widest start calls →
      heap.contains? name = some (decide (name ∈ contained calls))) ∧
    (∀ name ∈ contained calls, 0 < name ∧ name ≤ widest start calls) ∧
    heap.size = (contained calls).card ∧
    ∀ index operation, Admits (widest start calls) index operation →
      ∃ answer after, perform index operation heap = .done answer after ∧
        (operation = .select → (answer = none ↔ contained calls = ∅) ∧
          ∀ name, answer = some name → name ∈ contained calls ∧
            (Careful (⟨index, .select, answer⟩ :: calls) →
              ∀ other ∈ contained calls, rank index name ≤ rank index other)) := by
  have tells := history.tells
  refine ⟨tells.holds.toInverse, fun name present within =>
    tells.holds.contains?_eq present (Nat.lt_succ_of_le within), fun name member => ?_,
    tells.holds.size_eq, fun index operation admits => ?_⟩
  · obtain ⟨present, within⟩ := tells.holds.range member
    exact ⟨present, Nat.le_of_lt_succ within⟩
  by_cases selection : operation = .select
  · subst selection
    obtain ⟨answer, after, done, selected⟩ := select_returns admits tells.holds
    refine ⟨answer, after, done, fun _ => ?_⟩
    obtain ⟨rfl, none_, _⟩ | ⟨first, rfl, selects⟩ := selected
    · exact ⟨⟨fun _ => none_, fun _ => rfl⟩, nofun⟩
    · refine ⟨⟨nofun, fun none_ => ?_⟩, fun name same => ?_⟩
      · exact absurd selects.member (none_ ▸ Finset.notMem_empty first)
      · obtain rfl := Option.some.inj same
        exact ⟨selects.member, fun careful => selects.least (tells.ordered_now careful nofun)⟩
  · obtain ⟨answer, after, done, _⟩ := tells.perform_returns admits
    exact ⟨answer, after, done, fun same => absurd same selection⟩

/-- A variable that occurs more often by now is put in again, and another one comes first then. -/
theorem History.selects_least_moved : ∃ more,
    (Occurrences.ofVars 2).add default [.ofVar 1 true, .ofVar 1 false] = some more ∧
    ∃ heap, History 2 [⟨more, .insert 1, none⟩, ⟨.ofVars 2, .insert 2, none⟩,
        ⟨.ofVars 2, .insert 1, none⟩] heap ∧
      ∃ after, perform more .select heap = .done (some 2) after ∧
        ∀ other ∈ ({1, 2} : Finset Nat), rank more 2 ≤ rank more other := by
  obtain ⟨more, added⟩ : ∃ more,
      some more = (Occurrences.ofVars 2).add default [.ofVar 1 true, .ofVar 1 false] := ⟨_, rfl⟩
  have compares : Compares (.ofVars 2) 3 := by
    intro name present small
    obtain rfl | rfl : name = 1 ∨ name = 2 := by omega
    · exact ⟨_, rfl⟩
    · exact ⟨_, rfl⟩
  have comparesMore : Compares more 3 := by
    cases added
    intro name present small
    obtain rfl | rfl : name = 1 ∨ name = 2 := by omega
    · exact ⟨_, rfl⟩
    · exact ⟨_, rfl⟩
  have first : History 2 [⟨.ofVars 2, .insert 1, none⟩] ⟨#[0, 1, 2], #[0, 1, 2], 1⟩ :=
    .call .new ⟨by decide, by decide, compares⟩ rfl
  have second : History 2 [⟨.ofVars 2, .insert 2, none⟩, ⟨.ofVars 2, .insert 1, none⟩]
      ⟨#[0, 1, 2], #[0, 1, 2], 2⟩ := .call first ⟨by decide, by decide, compares⟩ rfl
  have third : History 2 [⟨more, .insert 1, none⟩, ⟨.ofVars 2, .insert 2, none⟩,
      ⟨.ofVars 2, .insert 1, none⟩] ⟨#[0, 2, 1], #[0, 2, 1], 2⟩ := by
    refine .call second ⟨by decide, by decide, comparesMore⟩ ?_
    cases added
    rfl
  have taken : perform more .select ⟨#[0, 2, 1], #[0, 2, 1], 2⟩ =
      .done (some 2) ⟨#[0, 1, 2], #[0, 1, 2], 1⟩ := by
    cases added
    rfl
  have careful : Careful [⟨more, .select, some 2⟩, ⟨more, .insert 1, none⟩,
      ⟨.ofVars 2, .insert 2, none⟩, ⟨.ofVars 2, .insert 1, none⟩] := by
    cases added
    simp only [Careful]
    decide
  obtain ⟨_, _, _, _, calls⟩ := third.selects_least
  obtain ⟨answer, after, done, selected⟩ := calls more .select comparesMore
  cases done.symm.trans taken
  obtain ⟨_, least⟩ := selected rfl
  exact ⟨more, added.symm, _, third, _, taken, fun other member => (least 2 rfl).2 careful other
    (by simpa [contained, or_comm] using member)⟩

end CnfSimplifier.VarHeap
