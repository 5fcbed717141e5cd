import CnfSimplifier.Proofs.TableAccess
import CnfSimplifier.Proofs.VarHeap

/-!
# The places of the heap

The two arrays of the heap range over the same variables, and their entries are among
these. The variables in the heap fill fewer places than there are. So sifting a variable,
putting one in and taking one out stay inside the arrays, as long as the occurrences of
every variable can be compared.
-/
namespace CnfSimplifier.VarHeap

variable {count : Nat} {heap after : VarHeap} {index : Occurrences} {name spot : Nat}

/-- Both arrays have a number of entries, and all entries are below it. -/
structure Ranges (count : Nat) (heap : VarHeap) : Prop extends Positive heap where
  orders : heap.order.size = count
  places : heap.place.size = count
  order_lt : ∀ (spot name : Nat), heap.order[spot]? = some name → name < count
  place_lt : ∀ (name spot : Nat), heap.place[name]? = some spot → spot < count
  size_lt : heap.size < count

/-- Both arrays have a number of entries. -/
structure Sized (count : Nat) (heap : VarHeap) : Prop where
  orders : heap.order.size = count
  places : heap.place.size = count

/-- The occurrences of every variable below a number are known. -/
def Compares (index : Occurrences) (count : Nat) : Prop :=
  ∀ name, 0 < name → name < count → ∃ rarity, rarity? index name = some rarity

/-- Any two names can be compared. -/
theorem Compares.exists_before? (compares : Compares index count) {a b : Nat} (first : 0 < a)
    (firstSmall : a < count) (second : 0 < b) (secondSmall : b < count) :
    ∃ isBefore, before? index a b = some isBefore := by
  obtain ⟨rarityA, foundA⟩ := compares a first firstSmall
  obtain ⟨rarityB, foundB⟩ := compares b second secondSmall
  simp only [before?, foundA, foundB, Option.bind_eq_bind, Option.bind_some]
  exact ⟨_, rfl⟩

/-- A variable of the engine has entries for both of its literals. -/
theorem compares_of_roomy {engine : Engine} (roomy : engine.Roomy)
    (small : engine.trail.vars.size ≤ 0x80000000) :
    Compares engine.index engine.trail.vars.size := by
  intro name positive inside
  have fits : 2 * name + 1 < UInt32.size := by
    simp only [UInt32.size]
    omega
  have var : (Literal.ofVar name true).var = name := Literal.var_ofVar positive fits
  obtain ⟨entry, isEntry⟩ := roomy.exists_entry (var.symm ▸ inside)
  obtain ⟨other, isOther⟩ : ∃ other,
      engine.index.entry? (Literal.ofVar name true).complement = some other := by
    refine roomy.exists_entry ?_
    rwa [Literal.var_complement (var.symm ▸ positive), var]
  simp only [rarity?, Occurrences.count?, isEntry, isOther, Option.map_some, Option.bind_eq_bind,
    Option.bind_some]
  exact ⟨_, rfl⟩

/-- A cleared heap has room for all names. -/
theorem Sized.ranges_clear (sized : heap.Sized count) (cleared : heap.clear = some after) :
    after.Ranges count := by
  obtain ⟨orders, rfl⟩ := sized
  have positive := positive_of_clear cleared
  unfold clear at cleared
  split at cleared
  · cases cleared
  next nonempty =>
    obtain rfl := Option.some.inj cleared
    have some_ : 0 < heap.place.size := Array.size_pos_iff.2 (by simpa using nonempty)
    refine ⟨positive, by simp [orders], by simp, fun spot name found => ?_, fun name spot found => ?_, some_⟩
    · obtain ⟨inside, rfl⟩ := Array.getElem?_eq_some_iff.1 found
      simpa [orders] using inside
    · obtain ⟨inside, rfl⟩ := Array.getElem?_eq_some_iff.1 found
      simpa using inside

/-- A heap that ranges over something can be emptied. -/
theorem exists_clear (nonempty : 0 < heap.place.size) : ∃ after, heap.clear = some after := by
  unfold clear
  rw [if_neg (by simpa using (Array.size_pos_iff.1 nonempty))]
  exact ⟨_, rfl⟩

/-- There is nothing to add for variables that the heap ranges over. -/
theorem Sized.expand {numVars : Nat} (sized : heap.Sized (numVars + 1)) :
    (heap.expand numVars).Sized (numVars + 1) := by
  obtain ⟨orders, places⟩ := sized
  constructor <;> simp [VarHeap.expand, orders, places]

namespace Ranges

theorem sized (ranges : heap.Ranges count) : heap.Sized count := ⟨ranges.orders, ranges.places⟩

/-- A name can be put on any place. -/
theorem exists_put (ranges : heap.Ranges count) (onPlace : 0 < spot) (inside : spot < count)
    (present : 0 < name) (small : name < count) :
    ∃ after, heap.put spot name = some after ∧ after.Ranges count := by
  have fits : (spot < heap.order.size && name < heap.place.size) = true := by
    rw [ranges.orders, ranges.places]
    simp [inside, small]
  have put : heap.put spot name = some { heap with
      order := heap.order.setIfInBounds spot name, place := heap.place.setIfInBounds name spot } :=
    if_pos fits
  refine ⟨_, put, ranges.toPositive.put onPlace present put, ?_, ?_, ?_, ?_, ranges.size_lt⟩
  · exact Array.size_setIfInBounds.trans ranges.orders
  · exact Array.size_setIfInBounds.trans ranges.places
  · intro other found atOther
    obtain rfl | before := eq_or_of_set atOther
    · exact small
    · exact ranges.order_lt other found before
  · intro other found atOther
    obtain rfl | before := eq_or_of_set atOther
    · exact inside
    · exact ranges.place_lt other found before

/-- On every place there is a name. -/
theorem exists_order (ranges : heap.Ranges count) (onPlace : 0 < spot) (inside : spot < count) :
    ∃ name, heap.order[spot]? = some name ∧ 0 < name ∧ name < count := by
  have here : spot < heap.order.size := ranges.orders.symm ▸ inside
  have found := Array.getElem?_eq_getElem here
  exact ⟨_, found, ranges.order spot _ onPlace found, ranges.order_lt spot _ found⟩

/-- Every name has a place. -/
theorem exists_place (ranges : heap.Ranges count) (present : 0 < name) (small : name < count) :
    ∃ spot, heap.place[name]? = some spot ∧ 0 < spot ∧ spot < count := by
  have here : name < heap.place.size := ranges.places.symm ▸ small
  have found := Array.getElem?_eq_getElem here
  exact ⟨_, found, ranges.place name _ present found, ranges.place_lt name _ found⟩

/-- The names on two places can be exchanged. -/
theorem exists_exchange (ranges : heap.Ranges count) {other : Nat} (onPlace : 0 < spot)
    (inside : spot < count) (otherOnPlace : 0 < other) (otherInside : other < count) :
    ∃ after, heap.exchange spot other = some after ∧ after.Ranges count := by
  obtain ⟨a, atSpot, positiveA, smallA⟩ := ranges.exists_order onPlace inside
  obtain ⟨b, atOther, positiveB, smallB⟩ := ranges.exists_order otherOnPlace otherInside
  obtain ⟨middle, put, halfway⟩ := ranges.exists_put onPlace inside positiveB smallB
  obtain ⟨after, putOther, whole⟩ := halfway.exists_put otherOnPlace otherInside positiveA smallA
  refine ⟨after, ?_, whole⟩
  simp only [VarHeap.exchange, atSpot, atOther, put, putOther, Option.bind_eq_bind, Option.bind_some]

theorem with_size (ranges : heap.Ranges count) {size : Nat} (small : size < count) :
    Ranges count { heap with size := size } :=
  ⟨ranges.toPositive.of_size, ranges.orders, ranges.places, ranges.order_lt, ranges.place_lt, small⟩

end Ranges

/-! ## Sifting -/

theorem stays_put (onPlace : 0 < spot) (inside : spot < count) (present : 0 < name)
    (small : name < count) :
    Run.StaysIn (Ranges count) (Run.update fun heap => heap.put spot name) fun _ => True :=
  .update fun _ ranges => ranges.exists_put onPlace inside present small

/-- A variable rises within the heap. -/
theorem stays_siftUp (compares : Compares index count) (present : 0 < name) (small : name < count)
    (fuel : Nat) {gap : Nat} (onPlace : 0 < gap) (inside : gap < count) :
    (siftUp index name fuel gap).StaysIn (Ranges count) fun _ => True := by
  induction fuel generalizing gap with
  | zero => exact fun _ _ => ⟨.stop, .stop nofun⟩
  | succ fuel ih =>
    unfold siftUp
    dsimp only
    split
    next => exact stays_put onPlace inside present small
    next notFirst =>
    have parent : 0 < gap / 2 := Nat.pos_of_ne_zero notFirst
    have parentInside : gap / 2 < count := by omega
    refine .bind (.read fun _ ranges => ranges.exists_order parent parentInside) fun above held => ?_
    obtain ⟨isBefore, compared⟩ := compares.exists_before? present small held.1 held.2
    refine .bind (.access compared) fun _ _ => ?_
    split
    · exact (stays_put onPlace inside held.1 held.2).bind fun _ _ => ih parent parentInside
    · exact stays_put onPlace inside present small

/-- A variable sinks within the heap. -/
theorem stays_siftDown (compares : Compares index count) (present : 0 < name) (small : name < count)
    (fuel : Nat) {gap : Nat} (onPlace : 0 < gap) (inside : gap < count) :
    (siftDown index name fuel gap).StaysIn (Ranges count) fun _ => True := by
  induction fuel generalizing gap with
  | zero => exact fun _ _ => ⟨.stop, .stop nofun⟩
  | succ fuel ih =>
    intro heap ranges
    unfold siftDown
    refine .step rfl ?_
    dsimp only
    split
    case isFalse => exact stays_put onPlace inside present small heap ranges
    next below =>
    have bound := ranges.size_lt
    obtain ⟨onLeft, atLeft, positiveLeft, smallLeft⟩ :=
      ranges.exists_order (by omega : 0 < 2 * gap) (by omega)
    refine .step (Run.access_of_eq_some atLeft) ?_
    -- Whichever child is chosen, it stands at a place of the heap.
    have descend : ∀ child below : Nat, 0 < child → child < count → 0 < below → below < count → (do
        if ← Run.access (before? index below name) then
          Run.update fun heap => heap.put gap below
          siftDown index name fuel child
        else Run.update fun heap => heap.put gap name : Run VarHeap Unit).Lands heap
          (fun _ after => after.Ranges count ∧ True) fun _ after => after.Ranges count := by
      intro child below childOnPlace childInside positive belowSmall
      obtain ⟨isBefore, compared⟩ := compares.exists_before? positive belowSmall present small
      refine .step (Run.access_of_eq_some compared) ?_
      split
      · exact ((stays_put onPlace inside positive belowSmall).bind fun _ _ =>
          ih childOnPlace childInside) heap ranges
      · exact stays_put onPlace inside present small heap ranges
    split
    · obtain ⟨onRight, atRight, positiveRight, smallRight⟩ :=
        ranges.exists_order (by omega : 0 < 2 * gap + 1) (by omega)
      obtain ⟨rightFirst, compared⟩ :=
        compares.exists_before? positiveRight smallRight positiveLeft smallLeft
      refine .step (Run.access_of_eq_some atRight) (.step (Run.access_of_eq_some compared) ?_)
      split
      · exact .step rfl (descend _ _ (by omega) (by omega) positiveRight smallRight)
      · exact .step rfl (descend _ _ (by omega) (by omega) positiveLeft smallLeft)
    · exact .step rfl (descend _ _ (by omega) (by omega) positiveLeft smallLeft)

/-- Raising a name stays within the tables. -/
theorem stays_percolateUp (compares : Compares index count) (onPlace : 0 < spot)
    (inside : spot < count) : (percolateUp index spot).StaysIn (Ranges count) fun _ => True :=
  .bind (.read fun _ ranges => ranges.exists_order onPlace inside) fun _ held =>
    stays_siftUp compares held.1 held.2 _ onPlace inside

/-- Sinking a name stays within the tables. -/
theorem stays_percolateDown (compares : Compares index count) (onPlace : 0 < spot)
    (inside : spot < count) : (percolateDown index spot).StaysIn (Ranges count) fun _ => True := by
  intro heap ranges
  obtain ⟨name, found, present, small⟩ := ranges.exists_order onPlace inside
  refine .step rfl (.step (Run.access_of_eq_some found) ?_)
  exact stays_siftDown compares present small _ onPlace inside heap ranges

/-! ## Putting in and taking out -/

/-- A variable comes into the heap, or back in order. -/
theorem stays_insert (compares : Compares index count) (present : 0 < name) (small : name < count) :
    (insert index name).StaysIn (Ranges count) fun _ => True := by
  intro heap ranges
  obtain ⟨spot, found, onPlace, inside⟩ := ranges.exists_place present small
  have contained : heap.contains? name = some (decide (spot ≤ heap.size)) := by
    rw [contains?, found, Option.map_some]
  have atPlace : Run.StaysIn (Ranges count) (Run.read fun heap : VarHeap => heap.place[name]?)
      fun spot => 0 < spot ∧ spot < count := .read fun _ ranges => ranges.exists_place present small
  unfold insert
  refine .step (Run.read_of_eq_some contained) ?_
  split
  · exact (atPlace.bind fun _ held => (stays_percolateUp compares held.1 held.2).bind fun _ _ =>
      atPlace.bind fun _ held => stays_percolateDown compares held.1 held.2) heap ranges
  next outside =>
    -- It waits behind the places of the heap, so there is a place left.
    have last : heap.size + 1 < count := by
      have beyond : ¬ spot ≤ heap.size := by simpa using outside
      omega
    obtain ⟨middle, exchanged, rangesMiddle⟩ :=
      ranges.exists_exchange onPlace inside (Nat.succ_pos heap.size) last
    refine .step (Run.read_of_eq_some found) (.step rfl ?_)
    refine .step (Run.update_of_eq_some exchanged) (.step rfl ?_)
    exact stays_percolateUp compares (Nat.succ_pos _) last _ (rangesMiddle.with_size last)

/-- The variable that is taken out is one that the heap ranges over. -/
theorem stays_select (compares : Compares index count) :
    (select index).StaysIn (Ranges count)
      fun found => ∀ name, found = some name → 0 < name ∧ name < count := by
  intro heap ranges
  have bound := ranges.size_lt
  have isLast : (if heap.place.isEmpty then none else some heap.size) = some heap.size := by
    refine if_neg ?_
    rw [Array.isEmpty_iff_size_eq_zero, ranges.places]
    omega
  unfold select
  refine .step (Run.read_of_eq_some isLast) ?_
  split
  · exact .pure ⟨ranges, nofun⟩
  next nonempty =>
    have some_ : 0 < heap.size := Nat.pos_of_ne_zero nonempty
    obtain ⟨first, atFirst, present, small⟩ := ranges.exists_order Nat.one_pos (by omega)
    obtain ⟨middle, exchanged, rangesMiddle⟩ :=
      ranges.exists_exchange some_ bound Nat.one_pos (by omega)
    refine .step (Run.read_of_eq_some atFirst) ?_
    refine .step (Run.update_of_eq_some exchanged) (.step rfl ?_)
    have shorter : Ranges count { middle with size := heap.size - 1 } :=
      rangesMiddle.with_size (by omega)
    have answers : Run.StaysIn (Ranges count) (pure (some first))
        fun found => ∀ name, found = some name → 0 < name ∧ name < count := by
      refine .pure fun name same => ?_
      obtain rfl := Option.some.inj same
      exact ⟨present, small⟩
    split
    · exact ((stays_percolateDown compares Nat.one_pos (by omega)).bind fun _ _ => answers) _ shorter
    · exact .step rfl (answers _ shorter)

end CnfSimplifier.VarHeap
