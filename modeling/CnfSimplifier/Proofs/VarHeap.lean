import CnfSimplifier.VarHeap
import CnfSimplifier.Proofs.Ending

/-!
# What the heap holds

The heap hands out variables, never the unused entry 0. The order in which it does
so is of no account to the formula, so nothing is said about it.
-/
namespace CnfSimplifier.VarHeap

variable {heap after : VarHeap} {index : Occurrences} {name spot : Nat}

/-- Every place from 1 on has a variable, and every variable such a place. -/
structure Positive (heap : VarHeap) : Prop where
  order : ∀ spot name, 0 < spot → heap.order[spot]? = some name → 0 < name
  place : ∀ name spot, 0 < name → heap.place[name]? = some spot → 0 < spot

theorem Positive.of_size {size : Nat} (positive : heap.Positive) :
    Positive { heap with size := size } := ⟨positive.order, positive.place⟩

/-- A cleared heap has no name that is none. -/
theorem positive_of_clear (cleared : heap.clear = some after) : after.Positive := by
  unfold clear at cleared
  split at cleared
  · cases cleared
  · obtain rfl := Option.some.inj cleared
    constructor
    · intro spot name present found
      obtain ⟨_, rfl⟩ := Array.getElem?_eq_some_iff.1 found
      simpa using present
    · intro name spot present found
      obtain ⟨_, rfl⟩ := Array.getElem?_eq_some_iff.1 found
      simpa using present

/-- After a write, an entry is the value written or stood there before. -/
theorem eq_or_of_set {items : Array Nat} {place value other found : Nat}
    (atOther : (items.setIfInBounds place value)[other]? = some found) :
    found = value ∨ items[other]? = some found := by
  rw [Array.getElem?_setIfInBounds] at atOther
  split at atOther
  · split at atOther
    · exact .inl (Option.some.inj atOther).symm
    · cases atOther
  · exact .inr atOther

/-- A name is put on a place. -/
theorem Positive.put (positive : heap.Positive) (onPlace : 0 < spot) (present : 0 < name)
    (done : heap.put spot name = some after) : after.Positive := by
  unfold VarHeap.put at done
  split at done
  · obtain rfl := Option.some.inj done
    constructor
    · intro other found positiveOther atOther
      obtain rfl | before := eq_or_of_set atOther
      · exact present
      · exact positive.order other found positiveOther before
    · intro other found positiveOther atOther
      obtain rfl | before := eq_or_of_set atOther
      · exact onPlace
      · exact positive.place other found positiveOther before
  · cases done

/-- Two names are exchanged. -/
theorem Positive.exchange {other : Nat} (positive : heap.Positive) (first : 0 < spot)
    (second : 0 < other) (done : heap.exchange spot other = some after) : after.Positive := by
  obtain ⟨a, atSpot, done⟩ := Option.bind_eq_some_iff.1 done
  obtain ⟨b, atOther, done⟩ := Option.bind_eq_some_iff.1 done
  obtain ⟨middle, put, done⟩ := Option.bind_eq_some_iff.1 done
  have halfway := positive.put first (positive.order other b second atOther) put
  exact halfway.put second (positive.order spot a first atSpot) done

/-! ## Sifting -/

/-- A name is sifted up. -/
theorem siftUp_ends (fuel : Nat) {gap : Nat} (positive : heap.Positive) (onPlace : 0 < gap)
    (present : 0 < name) :
    (siftUp index name fuel gap).Ends heap (fun _ after => after.Positive) fun _ _ => False := by
  induction fuel generalizing heap gap with
  | zero => exact .stop
  | succ fuel ih =>
    unfold siftUp
    dsimp only
    split
    next => exact .update fun after done => positive.put onPlace present done
    next inside =>
      refine Run.Looks.read.bind fun above atParent => Run.Looks.access.bind fun below _ => ?_
      have parent : 0 < gap / 2 := Nat.pos_of_ne_zero inside
      split
      · refine .seq (.update fun after done => ih ?_ parent)
        exact positive.put onPlace (positive.order _ above parent atParent) done
      · exact .update fun after done => positive.put onPlace present done

/-- What every put keeps is kept when a name is sifted down, as long as it tells of the names
that stand in the heap that they may be put. -/
theorem siftDown_keeps {kept : VarHeap → Prop} {fit : Nat → Prop}
    (fits : ∀ {heap spot name}, kept heap → 0 < spot → heap.order[spot]? = some name → fit name)
    (puts : ∀ {heap after : VarHeap} {spot name}, kept heap → 0 < spot → fit name →
      heap.put spot name = some after → kept after)
    (fuel : Nat) {gap : Nat} (holds : kept heap) (onPlace : 0 < gap) (fitting : fit name) :
    (siftDown index name fuel gap).Ends heap (fun _ after => kept after) fun _ _ => False := by
  induction fuel generalizing heap gap with
  | zero => exact .stop
  | succ fuel ih =>
    unfold siftDown
    refine .step rfl ?_
    dsimp only
    split
    case isFalse => exact .update fun after done => puts holds onPlace fitting done
    refine Run.Looks.access.bind fun onLeft atLeft => ?_
    have left : fit onLeft := fits holds (by omega) atLeft
    -- Whichever child is chosen, it stands at a place from 1 on.
    have descend : ∀ child below : Nat, 0 < child → fit below → (do
        if ← Run.access (before? index below name) then
          Run.update fun heap => heap.put gap below
          siftDown index name fuel child
        else Run.update fun heap => heap.put gap name : Run VarHeap Unit).Ends heap
          (fun _ after => kept after) fun _ _ => False := by
      intro child below childPositive fitBelow
      refine Run.Looks.access.bind fun isBefore _ => ?_
      split
      · exact .seq (.update fun after done =>
          ih (puts holds onPlace fitBelow done) childPositive)
      · exact .update fun after done => puts holds onPlace fitting done
    split
    · refine Run.Looks.access.bind fun onRight atRight => ?_
      refine Run.Looks.access.bind fun rightFirst _ => ?_
      split
      · exact .step rfl (descend _ _ (by omega) (fits holds (by omega) atRight))
      · exact .step rfl (descend _ _ (by omega) left)
    · exact .step rfl (descend _ _ (by omega) left)

theorem percolateUp_ends (positive : heap.Positive) (onPlace : 0 < spot) :
    (percolateUp index spot).Ends heap (fun _ after => after.Positive) fun _ _ => False := by
  unfold percolateUp
  refine Run.Looks.read.bind fun name atSpot => ?_
  exact siftUp_ends _ positive onPlace (positive.order spot name onPlace atSpot)

theorem percolateDown_ends (positive : heap.Positive) (onPlace : 0 < spot) :
    (percolateDown index spot).Ends heap (fun _ after => after.Positive) fun _ _ => False := by
  unfold percolateDown
  refine .step rfl (Run.Looks.access.bind fun name atSpot => ?_)
  exact siftDown_keeps (fun positive => positive.order _ _) (fun positive => positive.put) _
    positive onPlace (positive.order spot name onPlace atSpot)

/-! ## Putting in and taking out -/

/-- A name is inserted. -/
theorem insert_ends (positive : heap.Positive) (present : 0 < name) :
    (insert index name).Ends heap (fun _ after => after.Positive) fun _ _ => False := by
  unfold insert
  refine Run.Looks.read.bind fun isInside _ => ?_
  split
  · refine Run.Looks.read.bind fun spot atName => ?_
    refine (percolateUp_ends positive (positive.place name spot present atName)).bind
      fun _ middle positive => ?_
    refine Run.Looks.read.bind fun spot atName => ?_
    exact percolateDown_ends positive (positive.place name spot present atName)
  · refine Run.Looks.read.bind fun old atName => ?_
    refine .step rfl (.seq (.update fun middle done => ?_))
    have exchanged := positive.exchange (positive.place name old present atName)
      (Nat.succ_pos _) done
    exact .step rfl (percolateUp_ends exchanged.of_size (Nat.succ_pos _))

/-- The variable selected was in the heap. -/
theorem select_ends (positive : heap.Positive) :
    (select index).Ends heap (fun found after => after.Positive ∧
      ∀ name, found = some name → 0 < name) fun _ _ => False := by
  unfold select
  refine Run.Looks.read.bind fun last _ => ?_
  split
  · exact .pure ⟨positive, nofun⟩
  next nonempty =>
    refine Run.Looks.read.bind fun first atFirst => ?_
    have present := positive.order 1 first Nat.one_pos atFirst
    refine .seq (.update fun middle done => ?_)
    have exchanged := positive.exchange (Nat.pos_of_ne_zero nonempty) Nat.one_pos done
    refine .step rfl ?_
    have answer : ∀ name, some first = some name → 0 < name := by
      intro name same
      exact Option.some.inj same ▸ present
    split
    · exact (percolateDown_ends exchanged.of_size Nat.one_pos).bind fun _ _ positive =>
        .pure ⟨positive, answer⟩
    · exact .step rfl (.pure ⟨exchanged.of_size, answer⟩)

/-! ## How many variables there are -/

theorem size_put (done : heap.put spot name = some after) : after.size = heap.size := by
  unfold VarHeap.put at done
  split at done
  · obtain rfl := Option.some.inj done
    rfl
  · cases done

/-- Sifting takes no variable out. -/
theorem siftDown_keepsSize (fuel : Nat) {gap : Nat} (onPlace : 0 < gap) :
    (siftDown index name fuel gap).Ends heap (fun _ after => after.size = heap.size)
      fun _ _ => False :=
  @siftDown_keeps heap index name (fun after => after.size = heap.size) (fun _ => True)
    (fun _ _ _ => trivial) (fun same _ _ done => (size_put done).trans same) fuel gap rfl onPlace
    trivial

/-- A variable that was taken out is one less in the heap. -/
theorem select_shortens : (select index).Ends heap
    (fun found after => ∀ name, found = some name → after.size < heap.size) fun _ _ => False := by
  unfold select
  refine Run.Looks.read.bind fun last isLast => ?_
  obtain rfl : heap.size = last := by
    split at isLast
    · cases isLast
    · exact Option.some.inj isLast
  split
  · exact .pure nofun
  next nonempty =>
    refine Run.Looks.read.bind fun first _ => .seq (.update fun middle _ => .step rfl ?_)
    have shorter : heap.size - 1 < heap.size := Nat.sub_one_lt nonempty
    split
    · refine .bind (.step rfl (Run.Looks.access.bind fun _ _ => siftDown_keepsSize _ Nat.one_pos)) ?_
      exact fun _ after same => .pure fun _ _ => Nat.lt_of_le_of_lt (Nat.le_of_eq same) shorter
    · exact .step rfl (.pure fun _ _ => shorter)

end CnfSimplifier.VarHeap
