import CnfSimplifier.Proofs.HeapPlaces
import Mathlib.Data.Prod.Lex

/-!
# The order of the heap

In a heap in order no variable comes before the one at half its place, so none comes before the
first one. What decides between two variables is their rank at the time: the occurrences of the
rarer literal, then the index.

Sifting moves a gap through the heap. With the variable that is to come to rest filled in at the
gap, each move lets two variables change places, so the two arrays stay the inverse of each other
and the heap keeps its variables, whatever the ranks are. A variable that moves up meets pairs
that are in order apart from those at the gap; one that moves down meets a gap whose entry is in
order with its parent. Together they bring a variable of any rank to its place, which is why one
variable whose rank has changed can be put back in order.
-/
namespace CnfSimplifier.VarHeap

/-! ## Ranks -/

section Ranks

variable {index : Occurrences} {a b : Nat} {rarity : Int}

/-- What decides between two variables: the occurrences of the rarer literal, then the index. -/
def rank (index : Occurrences) (name : Nat) : Int ×ₗ Nat :=
  toLex (min ((index.count? (.ofVar name true)).getD 0)
    ((index.count? (Literal.ofVar name true).complement).getD 0), name)

/-- Names are ranked by rarity and then by number. -/
theorem rank_of_rarity? (known : rarity? index a = some rarity) :
    rank index a = toLex (rarity, a) := by
  obtain ⟨positive, isPositive, known⟩ := Option.bind_eq_some_iff.1 known
  obtain ⟨negative, isNegative, known⟩ := Option.bind_eq_some_iff.1 known
  obtain rfl : min positive negative = rarity := Option.some.inj known
  rw [rank, isPositive, isNegative, Option.getD_some, Option.getD_some]

/-- Variables are compared by rank. -/
theorem before?_eq (first : ∃ rarity, rarity? index a = some rarity)
    (second : ∃ rarity, rarity? index b = some rarity) :
    before? index a b = some (decide (rank index a < rank index b)) := by
  obtain ⟨rarityA, knownA⟩ := first
  obtain ⟨rarityB, knownB⟩ := second
  simp only [before?, knownA, knownB, rank_of_rarity? knownA, rank_of_rarity? knownB,
    Prod.Lex.toLex_lt_toLex, Option.bind_eq_bind, Option.bind_some, Option.pure_def,
    Option.some.injEq]
  by_cases less : rarityA < rarityB <;> by_cases same : rarityA = rarityB <;> simp [less, same]

end Ranks

/-! ## Trees in an array

The parent of a place is half of it, and the first place has none. -/

section Tree

variable {α : Type} [LinearOrder α] {size gap child : Nat} {entry moved : Nat → α}

/-- No entry is less than its parent. -/
def Heaped (size : Nat) (entry : Nat → α) : Prop :=
  ∀ spot, 2 ≤ spot → spot ≤ size → entry (spot / 2) ≤ entry spot

/-- Parents and children are in order unless one of them is at the gap, and so are the parent and
the children of the gap. -/
structure HeapedBut (size : Nat) (entry : Nat → α) (gap : Nat) : Prop where
  apart : ∀ spot, 2 ≤ spot → spot ≤ size → spot ≠ gap → spot / 2 ≠ gap →
    entry (spot / 2) ≤ entry spot
  across : ∀ spot, spot ≤ size → spot / 2 = gap → 2 ≤ gap → entry (gap / 2) ≤ entry spot

/-- The entry of a place is not less than its parent. -/
def BelowParent (entry : Nat → α) (gap : Nat) : Prop := 2 ≤ gap → entry (gap / 2) ≤ entry gap

/-- The entry of a place is not greater than its children. -/
def AboveChildren (size : Nat) (entry : Nat → α) (gap : Nat) : Prop :=
  ∀ spot, 2 ≤ spot → spot ≤ size → spot / 2 = gap → entry gap ≤ entry spot

/-- Two places have each other's entries. -/
def Swapped (entry moved : Nat → α) (a b : Nat) : Prop :=
  ∀ spot, moved spot = if spot = b then entry a else if spot = a then entry b else entry spot

/-- If the gap is in order with its neighbours, all are. -/
theorem HeapedBut.heaped (but : HeapedBut size entry gap) (below : BelowParent entry gap)
    (above : AboveChildren size entry gap) : Heaped size entry := by
  intro spot second inside
  by_cases atGap : spot = gap
  · subst atGap
    exact below second
  · by_cases isChild : spot / 2 = gap
    · rw [isChild]
      exact above spot second inside isChild
    · exact but.apart spot second inside atGap isChild

/-- In an array in order any place can be the gap. -/
theorem Heaped.but (heaped : Heaped size entry) (gap : Nat) : HeapedBut size entry gap where
  apart spot second inside _ _ := heaped spot second inside
  across spot inside isChild second := by
    have toGap : entry (gap / 2) ≤ entry gap := heaped gap second (by omega)
    have fromGap : entry (spot / 2) ≤ entry spot := heaped spot (by omega) inside
    rw [isChild] at fromGap
    exact toGap.trans fromGap

/-- The first entry of an array in order is the least. -/
theorem Heaped.least (heaped : Heaped size entry) {spot : Nat} (onPlace : 0 < spot)
    (inside : spot ≤ size) : entry 1 ≤ entry spot := by
  induction spot using Nat.strongRecOn with
  | ind spot ih =>
    by_cases first : spot = 1
    · rw [first]
    · have above : entry 1 ≤ entry (spot / 2) := ih (spot / 2) (by omega) (by omega) (by omega)
      exact above.trans (heaped spot (by omega) inside)

/-- The entry at the gap goes up past a greater parent, and stands above its children then. -/
theorem HeapedBut.rise (but : HeapedBut size entry gap) (second : 2 ≤ gap) (inside : gap ≤ size)
    (less : entry gap < entry (gap / 2)) (swapped : Swapped entry moved gap (gap / 2)) :
    HeapedBut size moved (gap / 2) ∧ AboveChildren size moved (gap / 2) := by
  have siblings : ∀ spot, 2 ≤ spot → spot ≤ size → spot ≠ gap → spot / 2 = gap / 2 →
      entry (gap / 2) ≤ entry spot := by
    intro spot second inside different isChild
    rw [← isChild]
    exact but.apart spot second inside different (by omega)
  refine ⟨⟨?_, ?_⟩, ?_⟩
  · intro spot secondSpot insideSpot notParent notChild
    have notGap : spot ≠ gap := fun same => notChild (by rw [same])
    rw [swapped (spot / 2), swapped spot, if_neg notChild, if_neg notParent, if_neg notGap]
    split
    next isChild => exact but.across spot insideSpot isChild second
    next isApart => exact but.apart spot secondSpot insideSpot notGap isApart
  · intro spot insideSpot isChild secondParent
    have toParent : entry (gap / 2 / 2) ≤ entry (gap / 2) :=
      but.apart (gap / 2) secondParent (by omega) (by omega) (by omega)
    rw [swapped (gap / 2 / 2), swapped spot, if_neg (by omega), if_neg (by omega),
      if_neg (by omega)]
    split
    next => exact toParent
    next different => exact toParent.trans (siblings spot (by omega) insideSpot different isChild)
  · intro spot secondSpot insideSpot isChild
    rw [swapped (gap / 2), swapped spot, if_pos rfl, if_neg (by omega)]
    split
    next => exact less.le
    next different => exact less.le.trans (siblings spot secondSpot insideSpot different isChild)

/-- The entry at the gap goes down past its least child, and stands below its parent then. -/
theorem HeapedBut.sink (but : HeapedBut size entry gap) (onPlace : 0 < gap)
    (isChild : child / 2 = gap) (inside : child ≤ size)
    (least : ∀ spot, spot ≤ size → spot / 2 = gap → entry child ≤ entry spot)
    (less : entry child < entry gap) (swapped : Swapped entry moved gap child) :
    HeapedBut size moved child ∧ BelowParent moved child := by
  refine ⟨⟨?_, ?_⟩, ?_⟩
  · intro spot secondSpot insideSpot notChild notGrandchild
    rw [swapped (spot / 2), swapped spot, if_neg notGrandchild, if_neg notChild]
    split
    next isSibling =>
      rw [if_neg (by omega)]
      exact least spot insideSpot isSibling
    next isApart =>
      split
      next isGap =>
        subst isGap
        exact but.across child inside isChild secondSpot
      next notGap => exact but.apart spot secondSpot insideSpot notGap isApart
  · intro spot insideSpot isGrandchild _
    rw [isChild, swapped gap, swapped spot, if_neg (by omega), if_pos rfl, if_neg (by omega),
      if_neg (by omega), ← isGrandchild]
    exact but.apart spot (by omega) insideSpot (by omega) (by omega)
  · intro _
    rw [isChild, swapped gap, swapped child, if_neg (by omega), if_pos rfl, if_pos rfl]
    exact less.le

end Tree

/-! ## Variables and places -/

variable {count : Nat} {heap filled after : VarHeap} {index : Occurrences} {name spot gap : Nat}

/-- The places of the variables are the inverse of the variables at the places. -/
structure Inverse (count : Nat) (heap : VarHeap) : Prop extends Ranges count heap where
  place_of_order : ∀ (spot name : Nat), 0 < spot → heap.order[spot]? = some name →
    heap.place[name]? = some spot
  order_of_place : ∀ (name spot : Nat), 0 < name → heap.place[name]? = some spot →
    heap.order[spot]? = some name

/-- A variable stands at a place of the heap. -/
def Has (heap : VarHeap) (name : Nat) : Prop :=
  ∃ spot, 0 < spot ∧ spot ≤ heap.size ∧ heap.order[spot]? = some name

/-- The rank of the variable at a place. -/
def rankAt (index : Occurrences) (heap : VarHeap) (spot : Nat) : Int ×ₗ Nat :=
  rank index ((heap.order[spot]?).getD 0)

/-- No variable in the heap comes before the one at half its place. -/
def Ordered (index : Occurrences) (heap : VarHeap) : Prop := Heaped heap.size (rankAt index heap)

theorem rankAt_of_order (found : heap.order[spot]? = some name) :
    rankAt index heap spot = rank index name := by
  rw [rankAt, found, Option.getD_some]

/-- A place with the same variable has the same rank. -/
theorem rankAt_congr (same : heap.order[spot]? = after.order[spot]?) :
    rankAt index heap spot = rankAt index after spot := by
  rw [rankAt, rankAt, same]

/-- The same variables in the same number of places, in another order. -/
structure Rearranges (count : Nat) (before after : VarHeap) : Prop where
  inverse : after.Inverse count
  size : after.size = before.size
  has_iff : ∀ name, after.Has name ↔ before.Has name

theorem Rearranges.refl (inverse : heap.Inverse count) : Rearranges count heap heap :=
  ⟨inverse, rfl, fun _ => .rfl⟩

theorem Rearranges.trans {middle : VarHeap} (first : Rearranges count heap middle)
    (second : Rearranges count middle after) : Rearranges count heap after where
  inverse := second.inverse
  size := second.size.trans first.size
  has_iff name := (second.has_iff name).trans (first.has_iff name)

/-- A variable is put to a place that is there. -/
theorem put_eq_some : heap.put spot name = some after ↔
    spot < heap.order.size ∧ name < heap.place.size ∧ after = { heap with
      order := heap.order.setIfInBounds spot name, place := heap.place.setIfInBounds name spot } := by
  unfold VarHeap.put
  split
  next fits =>
    simp only [Bool.and_eq_true, decide_eq_true_eq] at fits
    simp [fits, eq_comm]
  next unfit =>
    simp only [Bool.and_eq_true, decide_eq_true_eq] at unfit
    constructor
    · intro impossible
      cases impossible
    · rintro ⟨onPlace, known, _⟩
      exact absurd ⟨onPlace, known⟩ unfit

namespace Inverse

/-- A variable has one place. -/
theorem spot_unique (inverse : heap.Inverse count) {other : Nat} (onPlace : 0 < spot)
    (otherOnPlace : 0 < other) (found : heap.order[spot]? = some name)
    (foundOther : heap.order[other]? = some name) : spot = other := by
  have first := inverse.place_of_order spot name onPlace found
  have second := inverse.place_of_order other name otherOnPlace foundOther
  exact Option.some.inj (first.symm.trans second)

/-- Putting a variable where it stands changes nothing. -/
theorem put_self (inverse : heap.Inverse count) (onPlace : 0 < spot)
    (found : heap.order[spot]? = some name) : heap.put spot name = some heap := by
  have place := inverse.place_of_order spot name onPlace found
  obtain ⟨inside, isName⟩ := Array.getElem?_eq_some_iff.1 found
  obtain ⟨known, isSpot⟩ := Array.getElem?_eq_some_iff.1 place
  have order : heap.order.setIfInBounds spot name = heap.order := by
    rw [Array.setIfInBounds_def, dif_pos inside, ← isName, Array.set_getElem_self]
  have places : heap.place.setIfInBounds name spot = heap.place := by
    rw [Array.setIfInBounds_def, dif_pos known]
    conv_lhs => rw [← isSpot]
    rw [Array.set_getElem_self]
  exact put_eq_some.2 ⟨inside, known, by rw [order, places]⟩

/-- Two variables change places, and nothing else happens. -/
theorem exchange (inverse : heap.Inverse count) {other : Nat} (onPlace : 0 < spot)
    (inside : spot < count) (otherOnPlace : 0 < other) (otherInside : other < count) :
    ∃ after, heap.exchange spot other = some after ∧ after.Inverse count ∧
      after.size = heap.size ∧ ∀ k : Nat, after.order[k]? =
        if k = other then heap.order[spot]? else if k = spot then heap.order[other]?
        else heap.order[k]? := by
  obtain ⟨after, exchanged, ranges⟩ :=
    inverse.exists_exchange onPlace inside otherOnPlace otherInside
  obtain ⟨a, atSpot, rest⟩ := Option.bind_eq_some_iff.1 exchanged
  obtain ⟨b, atOther, rest⟩ := Option.bind_eq_some_iff.1 rest
  obtain ⟨middle, puts, rest⟩ := Option.bind_eq_some_iff.1 rest
  obtain ⟨spotInside, bKnown, rfl⟩ := put_eq_some.1 puts
  obtain ⟨otherInside', aKnown, rfl⟩ := put_eq_some.1 rest
  have placeA := inverse.place_of_order spot a onPlace atSpot
  have placeB := inverse.place_of_order other b otherOnPlace atOther
  have sameIff : a = b ↔ spot = other := by
    constructor
    · rintro rfl
      exact inverse.spot_unique onPlace otherOnPlace atSpot atOther
    · rintro rfl
      exact Option.some.inj (atSpot.symm.trans atOther)
  simp only [Array.size_setIfInBounds] at otherInside' aKnown
  have order : ∀ k : Nat, ((heap.order.setIfInBounds spot b).setIfInBounds other a)[k]? =
      if k = other then some a else if k = spot then some b else heap.order[k]? := by
    intro k
    rw [Array.getElem?_setIfInBounds, Array.getElem?_setIfInBounds]
    simp only [Array.size_setIfInBounds, spotInside, otherInside', if_true, eq_comm]
  have place : ∀ k : Nat, ((heap.place.setIfInBounds b spot).setIfInBounds a other)[k]? =
      if k = a then some other else if k = b then some spot else heap.place[k]? := by
    intro k
    rw [Array.getElem?_setIfInBounds, Array.getElem?_setIfInBounds]
    simp only [Array.size_setIfInBounds, bKnown, aKnown, if_true, eq_comm]
  refine ⟨_, exchanged, ⟨ranges, ?_, ?_⟩, rfl, ?_⟩
  · intro k known onPlace found
    have stands := inverse.place_of_order k known onPlace
    dsimp only at found ⊢
    rw [order] at found
    rw [place]
    grind
  · intro known k present found
    have stands := inverse.order_of_place known k present
    dsimp only at found ⊢
    rw [place] at found
    rw [order]
    grind
  · intro k
    dsimp only
    rw [order, atSpot, atOther]

/-- Two variables of the heap change places. -/
theorem exchange_within (inverse : heap.Inverse count) (index : Occurrences) {other : Nat}
    (onPlace : 0 < spot) (inside : spot ≤ heap.size) (otherOnPlace : 0 < other)
    (otherInside : other ≤ heap.size) :
    ∃ after, heap.exchange spot other = some after ∧ Rearranges count heap after ∧
      Swapped (rankAt index heap) (rankAt index after) spot other := by
  have bound := inverse.size_lt
  obtain ⟨after, exchanged, inverseAfter, size, order⟩ :=
    inverse.exchange onPlace (by omega : spot < count) otherOnPlace (by omega : other < count)
  refine ⟨after, exchanged, ⟨inverseAfter, size, fun name => ⟨?_, ?_⟩⟩, fun k => ?_⟩
  · rintro ⟨k, positive, within, found⟩
    rw [order] at found
    split at found
    next => exact ⟨spot, onPlace, inside, found⟩
    next =>
      split at found
      next => exact ⟨other, otherOnPlace, otherInside, found⟩
      next => exact ⟨k, positive, size ▸ within, found⟩
  · rintro ⟨k, positive, within, found⟩
    by_cases atSpot : k = spot
    · exact ⟨other, otherOnPlace, size.symm ▸ otherInside, by rw [order, if_pos rfl, ← atSpot, found]⟩
    · by_cases atOther : k = other
      · refine ⟨spot, onPlace, size.symm ▸ inside, ?_⟩
        rw [order, if_neg (fun same => atSpot (atOther.trans same.symm)), if_pos rfl, ← atOther, found]
      · exact ⟨k, positive, size.symm ▸ within, by rw [order, if_neg atOther, if_neg atSpot, found]⟩
  · unfold rankAt
    rw [order]
    split
    · rfl
    · split <;> rfl

/-- A variable of the heap is one that the heap ranges over. -/
theorem known (inverse : heap.Inverse count) (onPlace : 0 < spot)
    (found : heap.order[spot]? = some name) : 0 < name ∧ name < count :=
  ⟨inverse.order spot name onPlace found, inverse.order_lt spot name found⟩

end Inverse

/-! ## Sifting

A heap with a gap is looked at with the variable that moves filled in there. -/

theorem order_of_put (puts : heap.put gap name = some filled) :
    filled.order[gap]? = some name := by
  obtain ⟨inside, known, rfl⟩ := put_eq_some.1 puts
  dsimp only
  rw [Array.getElem?_setIfInBounds, if_pos rfl, if_pos inside]

theorem order_of_put_ne (puts : heap.put gap name = some filled) (different : spot ≠ gap) :
    filled.order[spot]? = heap.order[spot]? := by
  obtain ⟨inside, known, rfl⟩ := put_eq_some.1 puts
  dsimp only
  rw [Array.getElem?_setIfInBounds, if_neg different.symm]

/-- To move the gap is to let the variable filled in there change places. -/
theorem put_of_exchange {other above : Nat} {next : VarHeap}
    (puts : heap.put gap name = some filled)
    (atOther : filled.order[other]? = some above)
    (exchanged : filled.exchange gap other = some next) :
    ∃ middle, heap.put gap above = some middle ∧ middle.put other name = some next := by
  obtain ⟨a, atGap, rest⟩ := Option.bind_eq_some_iff.1 exchanged
  obtain ⟨b, found, rest⟩ := Option.bind_eq_some_iff.1 rest
  obtain ⟨last, putAbove, putName⟩ := Option.bind_eq_some_iff.1 rest
  obtain rfl : name = a := Option.some.inj ((order_of_put puts).symm.trans atGap)
  obtain rfl : above = b := Option.some.inj (atOther.symm.trans found)
  obtain ⟨inside, known, rfl⟩ := put_eq_some.1 puts
  obtain ⟨_, knownAbove, rfl⟩ := put_eq_some.1 putAbove
  obtain ⟨otherInside, _, rfl⟩ := put_eq_some.1 putName
  simp only [Array.size_setIfInBounds] at knownAbove otherInside
  refine ⟨_, put_eq_some.2 ⟨inside, knownAbove, rfl⟩, put_eq_some.2 ⟨?_, ?_, ?_⟩⟩
  · exact Array.size_setIfInBounds.symm ▸ otherInside
  · exact Array.size_setIfInBounds.symm ▸ known
  · -- The entry written first is written over.
    have places : ((heap.place.setIfInBounds name gap).setIfInBounds above gap).setIfInBounds name
        other = (heap.place.setIfInBounds above gap).setIfInBounds name other := by
      by_cases same : name = above
      · rw [same, Array.setIfInBounds_setIfInBounds]
      · rw [Array.setIfInBounds_comm _ _ same, Array.setIfInBounds_setIfInBounds]
    rw [Array.setIfInBounds_setIfInBounds, places]

/-- How a heap comes out when the variable at a gap has moved up. -/
structure Risen (index : Occurrences) (count name gap : Nat) (filled after : VarHeap) : Prop
    extends Rearranges count filled after where
  stands : ∃ spot, 0 < spot ∧ spot ≤ after.size ∧ after.order[spot]? = some name ∧
    (HeapedBut filled.size (rankAt index filled) gap →
      HeapedBut after.size (rankAt index after) spot ∧ BelowParent (rankAt index after) spot ∧
        (AboveChildren filled.size (rankAt index filled) gap →
          AboveChildren after.size (rankAt index after) spot))

/-- A variable moves up to a place where it does not come before its parent. -/
theorem siftUp_returns (compares : Compares index count) (fuel : Nat) (enough : gap < fuel)
    (onPlace : 0 < gap) (inside : gap ≤ filled.size) (puts : heap.put gap name = some filled)
    (inverse : filled.Inverse count) :
    (siftUp index name fuel gap).Returns heap fun _ after =>
      Risen index count name gap filled after := by
  induction fuel generalizing heap filled gap with
  | zero => exact absurd enough (Nat.not_lt_zero _)
  | succ fuel ih =>
    have stay : BelowParent (rankAt index filled) gap →
        Risen index count name gap filled filled := fun below =>
      ⟨.refl inverse, gap, onPlace, inside, order_of_put puts, fun but => ⟨but, below, id⟩⟩
    have named := inverse.known onPlace (order_of_put puts)
    unfold siftUp
    dsimp only
    split
    next first =>
      refine .of_done (Run.update_of_eq_some puts) (stay fun second => ?_)
      omega
    next notFirst =>
    have parent : 0 < gap / 2 := Nat.pos_of_ne_zero notFirst
    have different : gap / 2 ≠ gap := by omega
    have bound := inverse.size_lt
    obtain ⟨above, atParent, positive, small⟩ :=
      inverse.exists_order parent (by omega : gap / 2 < count)
    have found : heap.order[gap / 2]? = some above := by
      rw [← order_of_put_ne puts different, atParent]
    have compared := before?_eq (compares name named.1 named.2) (compares above positive small)
    refine .step (Run.read_of_eq_some found) (.step (Run.access_of_eq_some compared) ?_)
    rw [← rankAt_of_order (order_of_put puts), ← rankAt_of_order atParent]
    split
    next less =>
      have less := of_decide_eq_true less
      obtain ⟨next, exchanged, rearranges, swapped⟩ :=
        inverse.exchange_within index onPlace inside parent (by omega)
      obtain ⟨middle, putAbove, putName⟩ := put_of_exchange puts atParent exchanged
      refine .step (Run.update_of_eq_some putAbove) ?_
      refine (ih (by omega) parent (by rw [rearranges.size]; omega) putName
        rearranges.inverse).imp fun _ after risen => ?_
      obtain ⟨spot, spotOnPlace, spotInside, stands, ordered⟩ := risen.stands
      refine ⟨rearranges.trans risen.toRearranges, spot, spotOnPlace, spotInside, stands,
        fun but => ?_⟩
      obtain ⟨butNext, aboveNext⟩ := but.rise (by omega) inside less swapped
      rw [← rearranges.size] at butNext aboveNext
      obtain ⟨butAfter, below, aboveAfter⟩ := ordered butNext
      exact ⟨butAfter, below, fun _ => aboveAfter aboveNext⟩
    next notLess =>
      refine .of_done (Run.update_of_eq_some puts) (stay fun _ => ?_)
      exact not_lt.1 fun less => notLess (decide_eq_true less)

/-- How a heap comes out when the variable at a gap has moved down. -/
structure Sunk (index : Occurrences) (count gap : Nat) (filled after : VarHeap) : Prop
    extends Rearranges count filled after where
  ordered : HeapedBut filled.size (rankAt index filled) gap →
    BelowParent (rankAt index filled) gap → after.Ordered index

/-- A child of the gap, and the variable there, that does not come after the other child. -/
structure Foremost (index : Occurrences) (filled : VarHeap) (gap child below : Nat) : Prop where
  isChild : child / 2 = gap
  inside : child ≤ filled.size
  found : filled.order[child]? = some below
  least : ∀ spot, spot ≤ filled.size → spot / 2 = gap →
    rankAt index filled child ≤ rankAt index filled spot

/-- Below the gap the variables are the same whether the gap is filled in or not. -/
theorem exists_below {child : Nat} (compares : Compares index count)
    (puts : heap.put gap name = some filled) (inverse : filled.Inverse count)
    (isBelow : gap < child) (within : child ≤ filled.size) :
    ∃ below, heap.order[child]? = some below ∧ filled.order[child]? = some below ∧
      ∃ rarity, rarity? index below = some rarity := by
  have bound := inverse.size_lt
  obtain ⟨below, found, positive, small⟩ :=
    inverse.exists_order (by omega : 0 < child) (by omega : child < count)
  refine ⟨below, ?_, found, compares below positive small⟩
  rw [← order_of_put_ne puts (by omega : child ≠ gap), found]

/-- What comes next is about a foremost child. -/
theorem chooseChild_returns {onLeft : Nat} {next : Nat × Nat → Run VarHeap Unit}
    {done : Unit → VarHeap → Prop} (compares : Compares index count) (onPlace : 0 < gap)
    (puts : heap.put gap name = some filled) (inverse : filled.Inverse count)
    (hasLeft : 2 * gap ≤ filled.size) (atLeft : heap.order[2 * gap]? = some onLeft)
    (continues : ∀ child below, Foremost index filled gap child below →
      (next (child, below)).Returns heap done) :
    (if 2 * gap + 1 ≤ filled.size then do
        let onRight ← Run.access heap.order[2 * gap + 1]?
        if ← Run.access (before? index onRight onLeft) then do
          let chosen ← pure (2 * gap + 1, onRight)
          next chosen
        else do
          let chosen ← pure (2 * gap, onLeft)
          next chosen
      else do
        let chosen ← pure (2 * gap, onLeft)
        next chosen : Run VarHeap Unit).Returns heap done := by
  obtain ⟨again, atLeft', foundLeft, rarityLeft⟩ :=
    exists_below compares puts inverse (by omega : gap < 2 * gap) hasLeft
  obtain rfl : again = onLeft := Option.some.inj (atLeft'.symm.trans atLeft)
  split
  next hasRight =>
    obtain ⟨onRight, atRight, foundRight, rarityRight⟩ :=
      exists_below compares puts inverse (by omega : gap < 2 * gap + 1) hasRight
    have compared := before?_eq rarityRight rarityLeft
    refine .step (Run.access_of_eq_some atRight) (.step (Run.access_of_eq_some compared) ?_)
    rw [← rankAt_of_order foundRight, ← rankAt_of_order foundLeft]
    have children : ∀ spot, spot / 2 = gap → spot = 2 * gap ∨ spot = 2 * gap + 1 := by omega
    split
    next rightFirst =>
      have rightFirst := of_decide_eq_true rightFirst
      refine .step rfl (continues _ _ ⟨by omega, hasRight, foundRight, fun spot _ isChild => ?_⟩)
      obtain rfl | rfl := children spot isChild
      · exact rightFirst.le
      · exact le_rfl
    next leftFirst =>
      have leftFirst := not_lt.1 fun less => leftFirst (decide_eq_true less)
      refine .step rfl (continues _ _ ⟨by omega, hasLeft, foundLeft, fun spot _ isChild => ?_⟩)
      obtain rfl | rfl := children spot isChild
      · exact le_rfl
      · exact leftFirst
  next noRight =>
    refine .step rfl
      (continues _ _ ⟨by omega, hasLeft, foundLeft, fun spot isInside isChild => ?_⟩)
    obtain rfl : spot = 2 * gap := by omega
    exact le_rfl

/-- A variable that is not after a foremost child is not after any. -/
theorem Foremost.aboveChildren {child below : Nat} (foremost : Foremost index filled gap child below)
    (notLess : rankAt index filled gap ≤ rankAt index filled child) :
    AboveChildren filled.size (rankAt index filled) gap :=
  fun spot _ isInside isChild => notLess.trans (foremost.least spot isInside isChild)

/-- One turn: the variable changes places with a foremost child and moves on from there, or
stays. -/
theorem descend_returns {child below fuel : Nat} (compares : Compares index count)
    (onPlace : 0 < gap) (inside : gap ≤ filled.size) (puts : heap.put gap name = some filled)
    (inverse : filled.Inverse count) (foremost : Foremost index filled gap child below)
    (further : ∀ middle next, middle.put child name = some next → next.Inverse count →
      next.size = filled.size → (siftDown index name fuel child).Returns middle fun _ after =>
        Sunk index count child next after) :
    (do
      if ← Run.access (before? index below name) then
        Run.update fun heap => heap.put gap below
        siftDown index name fuel child
      else Run.update fun heap => heap.put gap name : Run VarHeap Unit).Returns heap
      fun _ after => Sunk index count gap filled after := by
  have atGap := order_of_put puts
  have named := inverse.known onPlace atGap
  have isBelow : gap < child := by
    have isChild := foremost.isChild
    omega
  obtain ⟨again, _, foundAgain, rarity⟩ :=
    exists_below compares puts inverse isBelow foremost.inside
  obtain rfl : again = below := Option.some.inj (foundAgain.symm.trans foremost.found)
  have compared := before?_eq rarity (compares name named.1 named.2)
  refine .step (Run.access_of_eq_some compared) ?_
  rw [← rankAt_of_order foremost.found, ← rankAt_of_order atGap]
  split
  next less =>
    have less := of_decide_eq_true less
    obtain ⟨next, exchanged, rearranges, swapped⟩ :=
      inverse.exchange_within index onPlace inside (by omega : 0 < child) foremost.inside
    obtain ⟨middle, putBelow, putName⟩ := put_of_exchange puts foremost.found exchanged
    refine .step (Run.update_of_eq_some putBelow) ?_
    refine (further middle next putName rearranges.inverse rearranges.size).imp
      fun _ after sunk => ?_
    refine ⟨rearranges.trans sunk.toRearranges, fun but _ => ?_⟩
    obtain ⟨butNext, belowNext⟩ :=
      but.sink onPlace foremost.isChild foremost.inside foremost.least less swapped
    rw [← rearranges.size] at butNext
    exact sunk.ordered butNext belowNext
  next notLess =>
    have atMost := not_lt.1 fun less => notLess (decide_eq_true less)
    exact .of_done (Run.update_of_eq_some puts)
      ⟨.refl inverse, fun but above => but.heaped above (foremost.aboveChildren atMost)⟩

/-- A variable moves down to a place where none of its children comes before it. -/
theorem siftDown_returns (compares : Compares index count) (fuel : Nat)
    (enough : filled.size < fuel + gap) (onPlace : 0 < gap) (inside : gap ≤ filled.size)
    (puts : heap.put gap name = some filled) (inverse : filled.Inverse count) :
    (siftDown index name fuel gap).Returns heap fun _ after =>
      Sunk index count gap filled after := by
  induction fuel generalizing heap filled gap with
  | zero => omega
  | succ fuel ih =>
    have size : heap.size = filled.size := (size_put puts).symm
    unfold siftDown
    refine .step rfl ?_
    rw [size]
    dsimp only
    split
    case isFalse childless =>
      refine .of_done (Run.update_of_eq_some puts)
        ⟨.refl inverse, fun but below => but.heaped below fun spot _ within isChild => ?_⟩
      omega
    next hasLeft =>
      obtain ⟨onLeft, atLeft, _, _⟩ :=
        exists_below compares puts inverse (by omega : gap < 2 * gap) hasLeft
      refine .step (Run.access_of_eq_some atLeft) ?_
      refine chooseChild_returns compares onPlace puts inverse hasLeft atLeft
        fun child below foremost => ?_
      have isChild := foremost.isChild
      have within := foremost.inside
      refine descend_returns compares onPlace inside puts inverse foremost
        fun middle next putName inverseNext sizeNext => ?_
      exact ih (by omega) (by omega) (by omega) putName inverseNext

/-- A name rises to its place. -/
theorem percolateUp_returns (compares : Compares index count) (inverse : heap.Inverse count)
    (onPlace : 0 < spot) (inside : spot ≤ heap.size) (found : heap.order[spot]? = some name) :
    (percolateUp index spot).Returns heap fun _ after =>
      Risen index count name spot heap after :=
  .step (Run.read_of_eq_some found) (siftUp_returns compares _ (Nat.lt_succ_self _) onPlace inside
    (inverse.put_self onPlace found) inverse)

/-- A variable sinks to where it belongs. -/
theorem percolateDown_returns (compares : Compares index count) (inverse : heap.Inverse count)
    (onPlace : 0 < spot) (inside : spot ≤ heap.size) :
    (percolateDown index spot).Returns heap fun _ after => Sunk index count spot heap after := by
  have bound := inverse.size_lt
  obtain ⟨name, found, _, _⟩ := inverse.exists_order onPlace (by omega : spot < count)
  refine .step rfl (.step (Run.access_of_eq_some found) ?_)
  exact siftDown_returns compares _ (by omega) onPlace inside (inverse.put_self onPlace found) inverse

end CnfSimplifier.VarHeap
