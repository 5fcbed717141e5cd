import CnfSimplifier.Proofs.GraphSearch
import CnfSimplifier.Proofs.Phases
import CnfSimplifier.Proofs.TwoSat

/-!
# The solver of binary clauses decides them

Whenever a variable is looked at, the literals of both layers are consistent and closed
under implications, and all earlier variables are settled: they have a value, or they are
in no binary clause. So once there is no further variable the layers satisfy every
binary clause, since a false literal of a clause implies the other one.

A start over comes with a new permanent literal, and there is room for each literal once.
In between the variables are gone through in order. This bounds the turns, whatever the
steps are limited to.
-/
namespace CnfSimplifier

namespace TwoSat

variable {graph : Implications} {layers after : TwoSat} {literal : Literal}

/-- A table is at least as long as the list of its literals. -/
theorem Tracks.size_le {table : Array Bool} {items : Array Literal} (tracks : Tracks table items)
    (nodup : items.toList.Nodup) : items.size ≤ table.size := by
  have within : items.toList.map Literal.index ⊆ List.range table.size := by
    intro place member
    obtain ⟨literal, listed, rfl⟩ := List.mem_map.1 member
    obtain ⟨inside, _⟩ := Array.getElem?_eq_some_iff.1 ((tracks literal).2 listed)
    exact List.mem_range.2 inside
  have distinct : (items.toList.map Literal.index).Nodup :=
    nodup.map fun _ _ => Literal.index_inj.1
  have bound := (List.subperm_of_subset distinct within).length_le
  rwa [List.length_map, List.length_range, Array.length_toList] at bound

/-- The literal is one of a variable of the graph. -/
def Inside (graph : Implications) (literal : Literal) : Prop :=
  0 < literal.var ∧ literal.var ≤ graph.numVars

/-- With a literal its complement is inside the graph. -/
theorem Inside.complement (inside : Inside graph literal) : Inside graph literal.complement := by
  unfold Inside
  rwa [Literal.var_complement inside.1]

/-- The edges of a graph lead to literals of its variables. -/
theorem inside_of_edge [Realm] {picture : Picture} (reflects : graph.Reflects picture)
    {target : Literal} (edge : graph.Edge literal target) : Inside graph target := by
  have present := (reflects.edge edge).right
  exact ⟨present.1, reflects.numVars ▸ present.2.1⟩

/-- The layers have a place for every literal of the graph, and no literal is true
together with its complement. -/
structure Proper (graph : Implications) (layers : TwoSat) : Prop where
  tracked : layers.Tracked
  permanent : layers.permanent.size = graph.nodes.size
  temporary : layers.temporary.size = graph.nodes.size
  units : layers.units.toList.Nodup
  assumed : layers.assumed.toList.Nodup
  inside : ∀ literal, layers.Has literal → Inside graph literal
  consistent : ∀ literal, layers.Has literal → ¬ layers.Has literal.complement

namespace Proper

theorem of_budget (proper : Proper graph layers) (budget : Budget) :
    Proper graph { layers with budget := budget } :=
  ⟨⟨proper.tracked.permanent, proper.tracked.temporary⟩, proper.permanent, proper.temporary,
    proper.units, proper.assumed, proper.inside, proper.consistent⟩

/-- Nothing is assigned at the start, so all is in order. -/
theorem start (full : graph.Full) {numVars : Nat} (same : graph.numVars = numVars)
    (budget : Budget) : Proper graph (start numVars budget) := by
  have size : graph.nodes.size = 2 * (numVars + 1) := same ▸ full.nodes
  refine ⟨⟨tracks_replicate _, tracks_replicate _⟩, ?_, ?_, .nil, .nil, ?_, ?_⟩
  · simp [TwoSat.start, size]
  · simp [TwoSat.start, size]
  · simp [Has, TwoSat.start]
  · simp [Has, TwoSat.start]

/-- One more literal keeps the layers consistent, if its complement is not true. -/
theorem insert (proper : Proper graph layers) (inside : Inside graph literal)
    (isFree : ¬ layers.Has literal.complement)
    (has : ∀ other, after.Has other ↔ layers.Has other ∨ other = literal) :
    (∀ other, after.Has other → Inside graph other) ∧
      ∀ other, after.Has other → ¬ after.Has other.complement := by
  refine ⟨fun other isTrue => ?_, fun other isTrue opposite => ?_⟩
  · rcases (has other).1 isTrue with old | rfl
    · exact proper.inside other old
    · exact inside
  · rcases (has other).1 isTrue with old | rfl
    · rcases (has _).1 opposite with older | same
      · exact proper.consistent other old older
      · refine isFree ?_
        rwa [← same, Literal.complement_complement (proper.inside other old).1]
    · rcases (has _).1 opposite with older | same
      · exact isFree older
      · exact Literal.complement_ne inside.1 same

theorem index_lt (proper : Proper graph layers) (full : graph.Full) (has : layers.Has literal) :
    literal.index < graph.nodes.size :=
  full.index_lt (proper.inside literal has).2

end Proper

/-! ## Following implications -/

/-- What a layer needs so that implications can be followed in it to the end: the
questions about literals of the graph are answered, a literal of the graph can be made
true unless one of its variable is, and there is room for each literal once. -/
structure Able (graph : Implications) (good : TwoSat → Prop) (layer : TwoSat → Array Literal)
    (isTrue : TwoSat → Literal → Option Bool) (make : Literal → Run TwoSat Unit) : Prop where
  spends : ∀ layers budget, good layers → good { layers with budget := budget } ∧
    layer { layers with budget := budget } = layer layers
  asks : ∀ layers literal, good layers → Inside graph literal →
    ∃ answer, isTrue layers literal = some answer ∧ (answer = true ↔ layers.Has literal)
  makes : ∀ layers literal, good layers → Inside graph literal → ¬ layers.Has literal →
    ¬ layers.Has literal.complement → (make literal).Returns layers fun _ after =>
      good after ∧ (layer layers).size ≤ (layer after).size
  room : ∀ layers, good layers → (layer layers).size ≤ graph.nodes.size
  lists : ∀ layers, good layers → ∀ literal ∈ (layer layers).toList,
    literal.index < graph.nodes.size

/-- What is assumed can be spread along the graph. -/
theorem able_suppose (full : graph.Full) :
    Able graph (Proper graph) TwoSat.assumed isTrue? presume where
  spends layers budget proper := ⟨proper.of_budget budget, rfl⟩
  asks layers literal proper inside := by
    have permanent : literal.index < layers.permanent.size := proper.permanent ▸ full.index_lt inside.2
    have temporary : literal.index < layers.temporary.size := proper.temporary ▸ full.index_lt inside.2
    obtain ⟨answer, asked⟩ : ∃ answer, isTrue? layers literal = some answer := by
      unfold isTrue?
      rw [Array.getElem?_eq_getElem permanent, Array.getElem?_eq_getElem temporary]
      cases layers.permanent[literal.index] <;> exact ⟨_, rfl⟩
    exact ⟨answer, asked, isTrue?_spec proper.tracked asked⟩
  makes layers literal proper inside isOpen isFree := by
    have bound : literal.index < layers.temporary.size := proper.temporary ▸ full.index_lt inside.2
    refine .of_done (Run.update_of_eq_some (if_pos bound)) ?_
    have has : ∀ other, Has { layers with
        temporary := layers.temporary.setIfInBounds literal.index true
        assumed := layers.assumed.push literal } other ↔ layers.Has other ∨ other = literal := by
      intro other
      simp [Has, or_assoc]
    obtain ⟨insideAll, consistent⟩ := proper.insert inside isFree has
    refine ⟨⟨⟨proper.tracked.permanent, proper.tracked.temporary.push bound⟩, proper.permanent, ?_,
      proper.units, ?_, insideAll, consistent⟩, ?_⟩
    · rw [Array.size_setIfInBounds, proper.temporary]
    · rw [Array.toList_push]
      rw [← List.concat_eq_append]
      exact proper.assumed.concat fun old => isOpen (.inr old)
    · simp
  room layers proper := proper.temporary ▸ proper.tracked.temporary.size_le proper.assumed
  lists layers proper literal listed := proper.index_lt full (.inr listed)

/-- What is permanent can be spread along the graph. -/
theorem able_conclude (full : graph.Full) :
    Able graph (fun layers => Proper graph layers ∧ layers.assumed = #[]) TwoSat.units isPermanent?
      establish where
  spends layers budget good := ⟨⟨good.1.of_budget budget, good.2⟩, rfl⟩
  asks layers literal good inside := by
    obtain ⟨proper, empty⟩ := good
    have bound : literal.index < layers.permanent.size := proper.permanent ▸ full.index_lt inside.2
    have asked : isPermanent? layers literal = some layers.permanent[literal.index] :=
      Array.getElem?_eq_getElem bound
    exact ⟨_, asked, mode_conclude.asks layers literal _ ⟨proper.tracked, empty⟩ asked⟩
  makes layers literal good inside isOpen isFree := by
    obtain ⟨proper, empty⟩ := good
    have bound : literal.index < layers.permanent.size := proper.permanent ▸ full.index_lt inside.2
    refine .of_done (Run.update_of_eq_some (if_pos bound)) ?_
    have has : ∀ other, Has { layers with
        permanent := layers.permanent.setIfInBounds literal.index true
        units := layers.units.push literal } other ↔ layers.Has other ∨ other = literal := by
      intro other
      simp [Has, empty]
    obtain ⟨insideAll, consistent⟩ := proper.insert inside isFree has
    refine ⟨⟨⟨⟨proper.tracked.permanent.push bound, proper.tracked.temporary⟩, ?_, proper.temporary,
      ?_, proper.assumed, insideAll, consistent⟩, empty⟩, ?_⟩
    · rw [Array.size_setIfInBounds, proper.permanent]
    · rw [Array.toList_push]
      rw [← List.concat_eq_append]
      exact proper.units.concat fun old => isOpen (.inl old)
    · simp
  room layers good := good.1.permanent ▸ good.1.tracked.permanent.size_le good.1.units
  lists layers good literal listed := good.1.index_lt full (.inl listed)

section Following

variable {good : TwoSat → Prop} {layer : TwoSat → Array Literal}
  {isTrue : TwoSat → Literal → Option Bool} {make : Literal → Run TwoSat Unit}
  {interrupted : Bool}

/-- Spending a step changes nothing but the budget. -/
theorem spend_apply (interrupted : Bool) (layers : TwoSat) :
    (modifyGet (spend interrupted) : Run TwoSat Bool) layers =
      .done (layers.budget.spend interrupted 1).1
        { layers with budget := (layers.budget.spend interrupted 1).2 } := rfl

/-- Literals of the graph can be made true, until one is false. -/
theorem spread_returns (able : Able graph good layer isTrue make) (isGood : good layers)
    {literals : List Literal} (inside : ∀ literal ∈ literals, Inside graph literal) :
    (spread interrupted isTrue make literals).Returns layers fun _ after =>
      good after ∧ (layer layers).size ≤ (layer after).size := by
  induction literals generalizing layers with
  | nil => exact .pure ⟨isGood, Nat.le_refl _⟩
  | cons literal rest ih =>
    obtain ⟨own, others⟩ := List.forall_mem_cons.1 inside
    unfold spread
    refine .step (spend_apply interrupted layers) ?_
    generalize (layers.budget.spend interrupted 1).2 = budget
    obtain ⟨isGood, sameLayer⟩ := able.spends layers budget isGood
    rw [← sameLayer]
    obtain ⟨known, asked, isKnown⟩ := able.asks _ literal isGood own
    refine .step (Run.read_of_eq_some asked) ?_
    split
    next => exact ih isGood others
    next unknown =>
      obtain ⟨opposite, askedOpposite, isOpposite⟩ := able.asks _ _ isGood own.complement
      refine .step (Run.read_of_eq_some askedOpposite) ?_
      split
      next => exact .pure ⟨isGood, Nat.le_refl _⟩
      next free =>
        refine (able.makes _ literal isGood own (fun has => unknown (isKnown.2 has))
          fun has => free (isOpposite.2 has)).bind ?_
        rintro _ middle ⟨goodMiddle, grows⟩
        refine (ih goodMiddle others).imp ?_
        rintro _ after ⟨goodAfter, further⟩
        exact ⟨goodAfter, grows.trans further⟩

/-- Implications are followed to the end, since a layer has room for each literal once. -/
theorem follow_returns [Realm] {picture : Picture} (reflects : graph.Reflects picture)
    (able : Able graph good layer isTrue make) (fuel : Nat) {position : Nat} (isGood : good layers)
    (before : position ≤ (layer layers).size) (enough : graph.nodes.size < position + fuel) :
    (follow graph interrupted layer isTrue make fuel position).Returns layers
      fun _ after => good after := by
  induction fuel generalizing layers position with
  | zero =>
    have := able.room layers isGood
    omega
  | succ fuel ih =>
    unfold follow
    refine .step rfl ?_
    split
    next => exact .pure isGood
    next literal found =>
      obtain ⟨inside, isItem⟩ := Array.getElem?_eq_some_iff.1 found
      have listed : literal ∈ (layer layers).toList := isItem ▸ Array.getElem_mem_toList inside
      obtain ⟨node, isNode⟩ := Implications.exists_node? (able.lists layers isGood literal listed)
      have successors : graph.successors? literal = some node.successors := by
        rw [Implications.successors?, isNode, Option.map_some]
      refine .step (Run.access_of_eq_some successors) ((spread_returns able isGood
        fun target member => inside_of_edge reflects ⟨node, isNode, member⟩).bind ?_)
      rintro success middle ⟨goodMiddle, grows⟩
      split
      · exact ih goodMiddle (by omega) (by omega)
      · exact .pure goodMiddle

end Following

section Decisions

variable [Realm] {picture : Picture} {interrupted : Bool}

/-- Assuming a literal assigns all that it leads to, or finds a clash. -/
theorem suppose_returns (full : graph.Full) (reflects : graph.Reflects picture)
    (proper : Proper graph layers) (inside : Inside graph literal) (isOpen : ¬ layers.Has literal)
    (isFree : ¬ layers.Has literal.complement) :
    (suppose graph interrupted literal).Returns layers fun _ after => Proper graph after := by
  have able := able_suppose full
  unfold suppose
  refine .step rfl ((able.makes layers literal proper inside isOpen isFree).bind ?_)
  rintro _ middle ⟨properMiddle, grows⟩
  refine follow_returns reflects able _ properMiddle grows ?_
  rw [proper.temporary]
  omega

/-- Making a literal permanent makes all that it leads to permanent. -/
theorem conclude_returns (full : graph.Full) (reflects : graph.Reflects picture)
    (proper : Proper graph layers) (empty : layers.assumed = #[]) (inside : Inside graph literal) :
    (conclude graph interrupted literal).Returns layers fun _ after =>
      Proper graph after ∧ after.assumed = #[] := by
  have able := able_conclude full
  have good : Proper graph layers ∧ layers.assumed = #[] := ⟨proper, empty⟩
  unfold conclude
  obtain ⟨opposite, askedOpposite, isOpposite⟩ := able.asks layers _ good inside.complement
  refine .step rfl (.step (Run.access_of_eq_some askedOpposite) ?_)
  split
  next => exact .pure good
  next free =>
    obtain ⟨known, asked, isKnown⟩ := able.asks layers _ good inside
    refine .step (Run.access_of_eq_some asked) ?_
    split
    next => exact .pure good
    next unknown =>
      refine (able.makes layers literal good inside (fun has => unknown (isKnown.2 has))
        fun has => free (isOpposite.2 has)).bind ?_
      rintro _ middle ⟨goodMiddle, grows⟩
      refine follow_returns reflects able _ goodMiddle grows ?_
      rw [proper.permanent]
      omega

omit [Realm] in
/-- Dropping the assumptions leaves the permanent literals in order. -/
theorem Proper.dropAssumptions (proper : Proper graph layers) :
    Proper graph layers.dropAssumptions where
  tracked := ⟨proper.tracked.permanent, proper.tracked.temporary.clear⟩
  permanent := proper.permanent
  temporary := by
    have same : ∀ (list : List Literal) (table : Array Bool), (list.foldl (fun table literal =>
        table.setIfInBounds literal.index false) table).size = table.size := by
      intro list
      induction list with
      | nil => exact fun _ => rfl
      | cons literal rest ih => exact fun table => (ih _).trans (Array.size_setIfInBounds ..)
    unfold TwoSat.dropAssumptions
    rw [← Array.foldl_toList, same, proper.temporary]
  units := proper.units
  assumed := .nil
  inside literal has := proper.inside literal (.inl (has_dropAssumptions.1 has))
  consistent literal has opposite := proper.consistent literal
    (.inl (has_dropAssumptions.1 has)) (.inl (has_dropAssumptions.1 opposite))

end Decisions

/-! ## Going through the variables -/

/-- A variable has a value, it is in no binary clause, or one of its literals is true. -/
def Settles (trail : Trail) (graph : Implications) (layers : TwoSat) (name : Nat) : Prop :=
  (∃ truth, trail.value? name = some (some truth)) ∨
    (∀ literal : Literal, literal.var = name → ∀ target, ¬ graph.Edge literal target) ∨
    ∃ literal, literal.var = name ∧ layers.Has literal

section Variables

variable {trail : Trail} {name : Nat}

theorem Settles.mono (settles : Settles trail graph layers name)
    (has : ∀ literal, layers.Has literal → after.Has literal) : Settles trail graph after name := by
  refine settles.imp_right (.imp_right ?_)
  rintro ⟨literal, own, isTrue⟩
  exact ⟨literal, own, has literal isTrue⟩

/-- Whether a variable is settled can be asked, and the answer is right. -/
theorem exists_isSettled? (full : graph.Full) (proper : Proper graph layers) (positive : 0 < name)
    (inGraph : name ≤ graph.numVars) (inTrail : name < trail.vars.size) :
    ∃ answer, isSettled? trail graph layers name = some answer ∧
      (answer = true → Settles trail graph layers name) := by
  have small : 2 * name + 1 < UInt32.size := by
    have := full.small
    omega
  have own : (Literal.ofVar name true).var = name := Literal.var_ofVar positive small
  have inside : Inside graph (Literal.ofVar name true) := by
    unfold Inside
    omega
  have value : trail.value? name = some trail.vars[name].value := by
    rw [Trail.value?, Array.getElem?_eq_getElem inTrail, Option.map_some]
  obtain ⟨forward, isForward⟩ := Implications.exists_node? (full.index_lt inside.2)
  obtain ⟨backward, isBackward⟩ := Implications.exists_node? (full.index_lt inside.complement.2)
  have able := able_suppose full
  obtain ⟨isTrue, askedTrue, knownTrue⟩ := able.asks layers _ proper inside
  obtain ⟨isFalse, askedFalse, knownFalse⟩ := able.asks layers _ proper inside.complement
  have asked : isSettled? trail graph layers name = some (trail.vars[name].value.isSome ||
      (forward.successors.isEmpty && backward.successors.isEmpty) || isTrue || isFalse) := by
    simp only [isSettled?, value, Implications.successors?, isForward, isBackward, askedTrue,
      askedFalse, Option.bind_eq_bind, Option.bind_some, Option.map_some, Option.pure_def]
    cases trail.vars[name].value.isSome <;>
      cases forward.successors.isEmpty && backward.successors.isEmpty <;> cases isTrue <;> rfl
  refine ⟨_, asked, fun holds => ?_⟩
  simp only [Bool.or_eq_true, Bool.and_eq_true] at holds
  rcases holds with ((known | ⟨noneForward, noneBackward⟩) | known) | known
  · obtain ⟨truth, same⟩ := Option.isSome_iff_exists.1 known
    exact .inl ⟨truth, by rw [value, same]⟩
  · refine .inr (.inl fun literal isOwn target edge => ?_)
    obtain ⟨node, found, member⟩ := edge
    rcases Literal.eq_or_eq_complement (by omega) (isOwn.trans own.symm) with rfl | rfl
    · obtain rfl := Option.some.inj (isForward.symm.trans found)
      simp [Array.isEmpty_iff.1 noneForward] at member
    · obtain rfl := Option.some.inj (isBackward.symm.trans found)
      simp [Array.isEmpty_iff.1 noneBackward] at member
  · exact .inr (.inr ⟨_, own, knownTrue.1 known⟩)
  · exact .inr (.inr ⟨_, (Literal.var_complement inside.1).trans own, knownFalse.1 known⟩)

/-- The turns that are left at most: one for each variable from the current one on, and
one for each variable with every literal that may still become permanent. -/
def turns (numVars : Nat) (layers : TwoSat) (name : Nat) : Nat :=
  (2 * (numVars + 1) - layers.units.size) * (numVars + 2) + (numVars + 2 - name)

/-- A start over with a new permanent literal leaves fewer turns. -/
theorem turns_restart {numVars : Nat} (inRange : name ≤ numVars + 1)
    (more : layers.units.size < after.units.size) (room : after.units.size ≤ 2 * (numVars + 1)) :
    turns numVars after 1 < turns numVars layers name := by
  have fewer : (2 * (numVars + 1) - after.units.size + 1) * (numVars + 2) ≤
      (2 * (numVars + 1) - layers.units.size) * (numVars + 2) :=
    Nat.mul_le_mul_right _ (by omega)
  rw [Nat.add_mul] at fewer
  unfold turns
  omega

/-- What is known when the search stops: everything is settled, or the steps have run out. -/
structure Solved (trail : Trail) (graph : Implications) (solved : Bool) (after : TwoSat) :
    Prop where
  proper : Proper graph after
  settled : solved = true → Closed graph after ∧
    ∀ name, 0 < name → name ≤ trail.numVars → Settles trail graph after name
  exhausted : solved = false → after.budget.isExhausted = true

variable [Realm] {picture : Picture} {interrupted : Bool}

/-- An open literal is assumed with everything that it implies, unless that leads to a
contradiction. -/
theorem suppose_open (full : graph.Full) (reflects : graph.Reflects picture)
    (proper : Proper graph layers) (closed : Closed graph layers) (inside : Inside graph literal)
    (isOpen : ¬ layers.Has literal) (isFree : ¬ layers.Has literal.complement) :
    (suppose graph interrupted literal).Returns layers fun success after =>
      Proper graph after ∧ after.units = layers.units ∧ (success = true → Closed graph after ∧
        after.Has literal ∧ ∀ other, layers.Has other → after.Has other) := by
  refine ((suppose_returns full reflects proper inside isOpen isFree).and_ends
    (suppose_ends closed)).imp ?_
  rintro success after ⟨properAfter, tracked, units, ⟨new, list⟩, closes, _⟩
  have sameUnits : after.units = layers.units := units
  refine ⟨properAfter, sameUnits, fun isTrue => ⟨closes isTrue, .inr ?_, fun other has => ?_⟩⟩
  · rw [list]
    exact List.mem_append_right _ List.mem_cons_self
  · refine has.imp (fun isUnit => sameUnits ▸ isUnit) fun isAssumed => ?_
    rw [list]
    exact List.mem_append_left _ isAssumed

/-- The complement of a literal that could not be assumed is a new permanent literal, unless
that leads to a contradiction as well. -/
theorem conclude_complement (full : graph.Full) (reflects : graph.Reflects picture)
    {middle : TwoSat} (proper : Proper graph middle) (closed : Closed graph layers)
    (units : middle.units = layers.units) (inside : Inside graph literal)
    (isOpen : ¬ layers.Has literal) (isFree : ¬ layers.Has literal.complement) :
    (conclude graph interrupted literal.complement).Returns middle.dropAssumptions
      fun success after => Proper graph after ∧
        (success = true → Closed graph after ∧ layers.units.size < after.units.size) := by
  have properDropped : Proper graph middle.dropAssumptions := proper.dropAssumptions
  have closedDropped : Closed graph middle.dropAssumptions :=
    closed.dropAssumptions proper.tracked units
  have onlyUnits : ∀ other, middle.dropAssumptions.Has other ↔ other ∈ layers.units.toList :=
    fun other => units ▸ has_dropAssumptions
  refine ((conclude_returns full reflects properDropped rfl inside.complement).and_ends
    (conclude_ends closedDropped rfl (fun has => ?_) fun has => ?_)).imp ?_
  · exact isFree (.inl ((onlyUnits _).1 has))
  · rw [Literal.complement_complement inside.1] at has
    exact isOpen (.inl ((onlyUnits _).1 has))
  rintro success after ⟨⟨properAfter, _⟩, ⟨further, listed, _⟩, closes, _⟩
  refine ⟨properAfter, fun isTrue => ⟨closes isTrue, ?_⟩⟩
  have length := congrArg List.length listed
  have before : middle.dropAssumptions.units = layers.units := units
  rw [before, List.length_append, List.length_cons, Array.length_toList, Array.length_toList]
    at length
  omega

/-- The loop over the variables ends with a solution, with a refutation, or out of steps. -/
theorem solveLoop_finishes (full : graph.Full) (reflects : graph.Reflects picture)
    (sound : trail.Sound) (same : graph.numVars = trail.numVars) (fuel : Nat) (positive : 0 < name)
    (inRange : name ≤ trail.numVars + 1) (proper : Proper graph layers) (closed : Closed graph layers)
    (settled : ∀ earlier, 0 < earlier → earlier < name → Settles trail graph layers earlier)
    (enough : turns trail.numVars layers name < fuel) :
    (solveLoop trail graph interrupted fuel name).Finishes layers (Solved trail graph)
      fun _ after => Proper graph after := by
  induction fuel generalizing layers name with
  | zero => exact absurd enough (Nat.not_lt_zero _)
  | succ fuel ih =>
    unfold solveLoop
    split
    next behind =>
      exact .pure ⟨proper, fun _ => ⟨closed, fun name present inside =>
        settled name present (by omega)⟩, by simp⟩
    next reached =>
    refine .step (spend_apply interrupted layers) ?_
    split
    swap
    next refused =>
      exact .pure ⟨proper.of_budget _, by simp, fun _ =>
        Budget.isExhausted_of_spend (by simpa using refused)⟩
    generalize (layers.budget.spend interrupted 1).2 = budget
    have proper : Proper graph { layers with budget := budget } := proper.of_budget budget
    have closed : Closed graph { layers with budget := budget } :=
      ⟨proper.tracked, closed.units, closed.both⟩
    have inTrail : name < trail.vars.size := by
      have := sound.nonempty
      unfold Trail.numVars at reached
      omega
    -- Going on to the next variable is a turn.
    have onward : ∀ later, Proper graph later → Closed graph later →
        (∀ literal, layers.Has literal → later.Has literal) →
        later.units = layers.units → Settles trail graph later name →
        (solveLoop trail graph interrupted fuel (name + 1)).Finishes later (Solved trail graph)
          fun _ after => Proper graph after := by
      intro later properLater closedLater has units settles
      refine ih (Nat.succ_pos name) (by omega) properLater closedLater ?_ ?_
      · intro earlier present before
        rcases Nat.lt_succ_iff_lt_or_eq.1 before with old | rfl
        · exact (settled earlier present old).mono has
        · exact settles
      · unfold turns at enough ⊢
        rw [units]
        omega
    obtain ⟨isSettled, asked, settles⟩ :=
      exists_isSettled? full proper positive (same ▸ not_lt.1 reached) inTrail
    refine .step (Run.read_of_eq_some asked) ?_
    cases isSettled with
    | true => exact onward _ proper closed (fun _ => id) rfl (settles rfl)
    | false =>
    obtain ⟨literal, chosen⟩ : ∃ literal, preferred? trail name = some literal := by
      unfold preferred?
      rw [Array.getElem?_eq_getElem inTrail]
      exact ⟨_, rfl⟩
    refine .step (Run.access_of_eq_some chosen) ?_
    have small := sound.small_of_lt inTrail
    obtain ⟨present, isOpen, isFree⟩ :=
      open_of_preferred? proper.tracked positive small asked chosen
    have own : literal.var = name := by
      obtain ⟨state, _, rfl⟩ := Option.map_eq_some_iff.1 chosen
      exact Literal.var_ofVar positive small
    have inside : Inside graph literal := ⟨present, by omega⟩
    refine .bind (.of_returns (suppose_open full reflects proper closed inside isOpen isFree)) ?_
    rintro success middle ⟨properMiddle, units, assumed⟩
    cases success with
    | true =>
      obtain ⟨closedMiddle, isTrue, keeps⟩ := assumed rfl
      exact onward middle properMiddle closedMiddle keeps units (.inr (.inr ⟨literal, own, isTrue⟩))
    | false =>
    refine .step rfl (.bind (.of_returns (conclude_complement full reflects properMiddle closed
      units inside isOpen isFree)) ?_)
    rintro success last ⟨properLast, concluded⟩
    cases success with
    | false => exact .fail properLast
    | true =>
    obtain ⟨closedLast, more⟩ : Closed graph last ∧ layers.units.size < last.units.size :=
      concluded rfl
    refine ih Nat.one_pos (by omega) properLast closedLast (fun earlier => by omega) ?_
    have room := properLast.tracked.permanent.size_le properLast.units
    rw [properLast.permanent, full.nodes, same] at room
    have := turns_restart inRange more room
    omega

/-- The search comes to an end, with a solution if the steps suffice and with a
contradiction only if there is one. -/
theorem solve_finishes (full : graph.Full) (reflects : graph.Reflects picture)
    (sound : trail.Sound) (same : graph.numVars = trail.numVars) (budget : Budget) :
    (solve trail graph interrupted).Finishes (start trail.numVars budget)
      (fun solved after => Solved trail graph solved after ∧
        ∀ literal ∈ after.units.toList, Forced graph literal)
      (fun cause after => Proper graph after ∧ cause = .inconsistent ∧
        (∀ literal ∈ after.units.toList, Forced graph literal) ∧
        ∃ literal ∈ after.units.toList,
          Relation.ReflTransGen graph.Edge literal literal.complement) := by
  have proper : Proper graph (start trail.numVars budget) := .start full same budget
  have closed : Closed graph (start trail.numVars budget) :=
    ⟨proper.tracked, by simp [start], by simp [Has, start]⟩
  refine .and_ends (solveLoop_finishes full reflects sound same _ Nat.one_pos (by omega) proper
    closed (fun earlier => by omega) ?_)
    (solveLoop_ends reflects sound _ Nat.one_pos closed (by simp [start]))
  have none : (start trail.numVars budget).units.size = 0 := rfl
  have rounds : (2 * trail.numVars + 3) * (trail.numVars + 2) =
      2 * (trail.numVars + 1) * (trail.numVars + 2) + (trail.numVars + 2) := Nat.succ_mul _ _
  unfold turns
  rw [none, Nat.sub_zero, rounds]
  omega

end Variables

/-! ## What the answers mean -/

/-- A literal is true in one of the layers. -/
def Makes (layers : TwoSat) (literal : Literal) : Prop := layers.isTrue? literal = some true

/-- What an answer says of clauses. -/
structure Decides (clauses : List (List Literal)) (answer : Except Error Bool) (layers : TwoSat) :
    Prop where
  /-- What is true for good follows. -/
  implied : ∀ literal, layers.isPermanent? literal = some true →
    ∀ values, FormulaHolds values clauses → literal.Holds values
  /-- A contradiction is reported only where there is one. -/
  refuted : ∀ cause, answer = .error cause → ∀ values, ¬ FormulaHolds values clauses
  /-- The layers of a solution agree with each other and satisfy the clauses. -/
  solution : answer = .ok true → (∀ literal, layers.Makes literal → ¬ layers.Makes literal.complement) ∧
    ∀ literals ∈ clauses, ∃ literal ∈ literals, layers.Makes literal
  /-- If the steps suffice, the answer is a contradiction or a solution, whichever there is. -/
  decided : layers.budget.isExhausted = false →
    ((∃ cause, answer = .error cause) ↔ ∀ values, ¬ FormulaHolds values clauses) ∧
    (answer = .ok true ↔ ∃ values, FormulaHolds values clauses)

/-- The tables say of a literal what the lists say of it. -/
theorem Proper.makes_iff (proper : Proper graph layers) (full : graph.Full) :
    layers.Makes literal ↔ layers.Has literal := by
  constructor
  · exact fun isTrue => (isTrue?_spec proper.tracked isTrue).1 rfl
  · intro has
    obtain ⟨answer, asked, known⟩ :=
      (able_suppose full).asks layers literal proper (proper.inside literal has)
    rw [Makes, asked, known.2 has]

/-- The assignment of the layers. -/
def assignment (layers : TwoSat) : Assignment :=
  fun name => layers.isTrue? (Literal.ofVar name true) == some true

/-- The literals of consistent layers are true in their assignment. -/
theorem Makes.holds (isTrue : layers.Makes literal) (present : 0 < literal.var)
    (consistent : ∀ literal, layers.Makes literal → ¬ layers.Makes literal.complement) :
    literal.Holds layers.assignment := by
  have own := Literal.ofVar_var present
  unfold Literal.Holds assignment
  cases sign : literal.isPositive with
  | true =>
    rw [sign] at own
    rw [own, isTrue]
    rfl
  | false =>
    have opposite : Literal.ofVar literal.var true = literal.complement := by
      have presentComplement : 0 < literal.complement.var := by
        rwa [Literal.var_complement present]
      have mirrored := Literal.ofVar_var presentComplement
      rwa [Literal.var_complement present, Literal.isPositive_complement present, sign] at mirrored
    rw [opposite]
    simpa [Makes] using consistent literal isTrue

section Engine

variable [Realm] {engine built : Engine} {interrupted : Bool} {tool : Tool Unit}

/-- Where everything is settled each clause has a true literal. -/
theorem exists_has_of_settled (sound : engine.Sound) (applied : Probing.Applied engine)
    (edges : graph.Edge = engine.Links) (closed : Closed graph layers)
    (settled : ∀ name, 0 < name → name ≤ engine.trail.numVars →
      Settles engine.trail graph layers name) {literals : List Literal}
    (member : literals ∈ engine.binaries) : ∃ literal ∈ literals, layers.Has literal := by
  obtain ⟨x, y, rfl, links⟩ := Engine.links_of_mem_binaries member
  obtain ⟨clause, live, _, pair, _⟩ := Engine.mem_binaries.1 member
  have inside : x ∈ clause.literals := by simp [pair]
  have present := (sound.wellFormed.admits _ (Arena.literals_mem_contents live)).present x inside
  have edge : graph.Edge x.complement y := edges ▸ links
  rcases settled x.var present.1 present.2.1 with ⟨truth, value⟩ | none | ⟨literal, own, has⟩
  · have isOpen := Engine.open_of_applied sound applied live inside
    rw [Trail.literalValue?, value] at isOpen
    simp [Literal.valueUnder] at isOpen
  · exact absurd edge (none _ (Literal.var_complement present.1) y)
  · rcases Literal.eq_or_eq_complement present.1 own with rfl | rfl
    · exact ⟨literal, List.mem_cons_self, has⟩
    · exact ⟨y, by simp, closed.both _ has y edge⟩

/-- A forced literal is true wherever the clauses hold. -/
theorem Forced.holds {picture : Picture} (reflects : graph.Reflects picture)
    {clauses : Set (List Literal)} {values : Assignment}
    (rests : ∀ a b, graph.Edge a b → ∃ part ∈ clauses, part ⊆ [a.complement, b])
    (forced : Forced graph literal) (holds : ∀ literals ∈ clauses, ClauseHolds values literals) :
    literal.Holds values := by
  by_contra isFalse
  exact isFalse (reflects.holds_of_path rests holds forced.2
    ((Literal.holds_complement forced.1).2 isFalse))

/-- The search decides the clauses of two literals of an engine whose root literals were
applied. -/
theorem solve_decides (sound : engine.Sound) (applied : Probing.Applied engine)
    (made : Engine.implications engine = .done graph built) (full : graph.Full) (budget : Budget) :
    (solve engine.trail graph interrupted).attempt.Returns (start engine.numVars budget)
      fun answer after => Decides engine.binaries answer after := by
  have works : Works .propagation Engine.implications engine _ := Engine.works_implications
  obtain ⟨_, same, reflects, _⟩ := (works sound).done_of_eq made
  have picture : built.picture = engine.picture := by
    rw [same]
    exact Engine.picture_eq_of_same rfl rfl rfl rfl
  rw [picture] at reflects
  have edges := Engine.edge_of_implications sound applied made
  have rests : ∀ a b, graph.Edge a b →
      ∃ part ∈ {literals | literals ∈ engine.binaries}, part ⊆ [a.complement, b] :=
    fun a b edge => Engine.exists_binary_of_links sound (edges ▸ edge)
  have forcedHolds : ∀ literal, Forced graph literal → ∀ values,
      FormulaHolds values engine.binaries → literal.Holds values :=
    fun literal forced values holds => forced.holds reflects rests holds
  refine (solve_finishes full reflects sound.trail reflects.numVars budget).attempt.imp ?_
  rintro (cause | solved) after reached
  · obtain ⟨proper, _, forced, literal, member, path⟩ := reached
    have contradiction : ∀ values, ¬ FormulaHolds values engine.binaries := by
      intro values holds
      have isTrue := forcedHolds literal (forced literal member) values holds
      exact (Literal.holds_complement (forced literal member).1).1
        (reflects.holds_of_path rests holds path isTrue) isTrue
    refine ⟨fun literal isTrue => ?_, fun _ _ => contradiction, nofun, fun _ => ⟨?_, ?_⟩⟩
    · exact forcedHolds literal (forced literal ((proper.tracked.permanent literal).1 isTrue))
    · exact ⟨fun _ => contradiction, fun _ => ⟨cause, rfl⟩⟩
    · exact ⟨nofun, fun ⟨values, holds⟩ => absurd holds (contradiction values)⟩
  · obtain ⟨⟨proper, settled, exhausted⟩, forced⟩ := reached
    have solution : solved = true →
        (∀ literal, after.Makes literal → ¬ after.Makes literal.complement) ∧
        ∀ literals ∈ engine.binaries, ∃ literal ∈ literals, after.Makes literal := by
      intro isSolved
      obtain ⟨closed, settles⟩ := settled isSolved
      refine ⟨fun literal first second => ?_, fun literals member => ?_⟩
      · exact proper.consistent literal ((proper.makes_iff full).1 first)
          ((proper.makes_iff full).1 second)
      · obtain ⟨literal, inside, has⟩ := exists_has_of_settled sound applied edges closed settles member
        exact ⟨literal, inside, (proper.makes_iff full).2 has⟩
    refine ⟨fun literal isTrue => ?_, nofun, fun same => solution (Except.ok.inj same), fun left => ?_⟩
    · exact forcedHolds literal (forced literal ((proper.tracked.permanent literal).1 isTrue))
    · obtain rfl : solved = true := by
        by_contra unsolved
        simp [exhausted (by simpa using unsolved)] at left
      obtain ⟨consistent, satisfies⟩ := solution rfl
      have holds : FormulaHolds after.assignment engine.binaries := by
        intro literals member
        obtain ⟨literal, inside, isTrue⟩ := satisfies literals member
        have present := (proper.inside literal ((proper.makes_iff full).1 isTrue)).1
        exact ⟨literal, inside, isTrue.holds present consistent⟩
      exact ⟨⟨fun ⟨_, impossible⟩ => (nomatch impossible), fun none => absurd holds (none _)⟩,
        ⟨fun _ => ⟨_, holds⟩, fun _ => rfl⟩⟩

/-! ## What a run does with a solution -/

/-- The literals of a refutation can be assigned, or the clauses refuse one. -/
theorem safe_assignAll (literals : List Literal) (sound : engine.Sound)
    (follow : ∀ literal ∈ literals, Follows engine.picture literal) :
    (assignAll literals).Safe (fun _ => False) engine := by
  induction literals generalizing engine with
  | nil => exact .pure
  | cons literal rest ih =>
    obtain ⟨own, others⟩ := List.forall_mem_cons.1 follow
    have works : Works .propagation (Engine.assignUnit literal) engine _ :=
      Engine.works_assignUnit own.present own.rup
    refine works.safe_bind sound
      (Engine.safe_assignUnit sound.trail.atRoot (Engine.present_of_lookup own.present).2.1) ?_
    intro _ middle leads soundMiddle _
    exact ih soundMiddle fun other member => (others other member).of_leads sound leads

/-- The permanent literals that are open can be assigned. -/
theorem assignOpen_returns (literals : List Literal) (sound : engine.Sound)
    (strict : ¬ Realm.Lenient) (follow : ∀ literal ∈ literals, Follows engine.picture literal) :
    (assignOpen literals).Returns engine fun _ after => engine.Leads .propagation after := by
  induction literals generalizing engine with
  | nil => exact .pure (.refl sound)
  | cons literal rest ih =>
    obtain ⟨own, others⟩ := List.forall_mem_cons.1 follow
    obtain ⟨_, bound, kept⟩ := Engine.present_of_lookup own.present
    unfold assignOpen
    refine .step (Engine.literalValue_of_lt bound) ?_
    split
    next isNone =>
      have isOpen : engine.trail.literalValue? literal = some none := by
        rw [Trail.literalValue?_of_lt bound, Option.isNone_iff_eq_none.1 isNone]
      have works : Works .propagation (Engine.assignUnit literal) engine _ :=
        Engine.works_assignUnit own.present own.rup
      have assigned : (Engine.assignUnit literal).Returns engine _ :=
        (Engine.safe_assignUnit sound.trail.atRoot bound).returns (Engine.assignUnit_of_open sound.trail
          isOpen (kept.resolve_right strict)) fun _ _ => id
      refine (assigned.and_ends (works sound)).bind ?_
      rintro _ middle ⟨_, leads, _⟩
      have counts : Works .propagation (Engine.count fun tally =>
          { tally with twoSatUnits := tally.twoSatUnits + 1 }) middle _ := Engine.works_count _
      have counted := (counts (leads.sound sound)).done_of_eq rfl
      have further := leads.trans counted.1
      refine .step rfl ((ih (further.sound sound) fun other member =>
        (others other member).of_leads sound further).imp ?_)
      exact fun _ after last => further.trans last
    next => exact ih sound others

/-- The phase of a variable makes a literal true. -/
def Suggests (engine : Engine) (literal : Literal) : Prop :=
  engine.trail.phase? literal.var = some literal.isPositive

omit [Realm] in
/-- A phase is set, and other phases stay. -/
theorem setPhase_returns {name : Nat} (phase : Bool) (inTrail : name < engine.trail.vars.size) :
    (Engine.updateTrail fun trail => trail.setPhase name phase).Returns engine fun _ after =>
      ∀ literal, (literal.var = name → literal.isPositive = phase) →
        (literal.var = name ∨ Suggests engine literal) → Suggests after literal := by
  obtain ⟨trail, changed⟩ : ∃ trail, engine.trail.setPhase name phase = some trail :=
    ⟨_, if_pos inTrail⟩
  have updated : (do
      let trail ← engine.trail.setPhase name phase
      return { engine with trail := trail } : Option Engine) =
        some { engine with trail := trail } := by
    rw [changed]
    rfl
  refine .of_done (Run.update_of_eq_some updated) fun literal sign reason => ?_
  change trail.phase? literal.var = _
  rw [Trail.phase?_setPhase changed]
  split
  next same => rw [sign same]
  next different => exact reason.resolve_left different

/-- The phase of a variable becomes its value in the layers; other phases stay. -/
theorem keepPhase_returns (full : graph.Full) (proper : Proper graph layers)
    (vars : graph.numVars = engine.numVars) (sound : engine.Sound) {name : Nat} (positive : 0 < name)
    (inGraph : name ≤ graph.numVars) :
    (keepPhase layers name).Returns engine fun _ after => engine.Leads .propagation after ∧
      ∀ literal, layers.Has literal → (literal.var = name ∨ Suggests engine literal) →
        Suggests after literal := by
  have small : 2 * name + 1 < UInt32.size := by
    have := full.small
    omega
  have own : (Literal.ofVar name true).var = name := Literal.var_ofVar positive small
  have inside : Inside graph (Literal.ofVar name true) := by
    unfold Inside
    omega
  have inTrail : name < engine.trail.vars.size := by
    have nonempty := sound.trail.nonempty
    unfold Engine.numVars Trail.numVars at vars
    omega
  have able := able_suppose full
  obtain ⟨isTrue, askedTrue, knownTrue⟩ := able.asks layers _ proper inside
  obtain ⟨isFalse, askedFalse, knownFalse⟩ := able.asks layers _ proper inside.complement
  have works : Works .propagation (keepPhase layers name) engine fun _ _ => True := works_keepPhase
  -- The phase that is set is the sign of the literal that is true.
  have sets : ∀ phase, (∀ literal, layers.Has literal → literal.var = name →
        literal.isPositive = phase) →
      (Engine.updateTrail fun trail => trail.setPhase name phase).Returns engine fun _ after =>
        ∀ literal, layers.Has literal → (literal.var = name ∨ Suggests engine literal) →
          Suggests after literal := fun phase sign =>
    (setPhase_returns phase inTrail).imp fun _ _ suggests literal has =>
      suggests literal (sign literal has)
  have others : ∀ literal, layers.Has literal → literal.var = name →
      literal = Literal.ofVar name true ∨ literal = (Literal.ofVar name true).complement :=
    fun literal _ same => Literal.eq_or_eq_complement inside.1 (same.trans own.symm)
  have positiveSign : (Literal.ofVar name true).isPositive = true :=
    Literal.isPositive_ofVar positive small
  have leads : ∀ {post : Engine → Prop}, (keepPhase layers name).Returns engine
      (fun _ after => post after) → (keepPhase layers name).Returns engine
        fun _ after => engine.Leads .propagation after ∧ post after := by
    intro post returns
    refine (returns.and_ends (works sound)).imp ?_
    rintro _ after ⟨holds, leads, _⟩
    exact ⟨leads, holds⟩
  refine leads ?_
  unfold keepPhase
  refine .step (Run.access_of_eq_some askedTrue) ?_
  split
  next isPositive =>
    refine sets true fun literal has same => ?_
    rcases others literal has same with rfl | rfl
    · exact positiveSign
    · exact absurd has (proper.consistent _ (knownTrue.1 isPositive))
  next notPositive =>
    refine .step (Run.access_of_eq_some askedFalse) ?_
    split
    next isNegative =>
      refine sets false fun literal has same => ?_
      rcases others literal has same with rfl | rfl
      · exact absurd (knownTrue.2 has) notPositive
      · rw [Literal.isPositive_complement inside.1, positiveSign]
        rfl
    next notNegative =>
      refine .pure fun literal has reason => reason.resolve_left fun same => ?_
      rcases others literal has same with rfl | rfl
      · exact notPositive (knownTrue.2 has)
      · exact notNegative (knownFalse.2 has)

/-- The phases of all variables are suggested. -/
theorem keepPhases_returns (full : graph.Full) (proper : Proper graph layers)
    (vars : graph.numVars = engine.numVars) (sound : engine.Sound) (names : List Nat)
    (inside : ∀ name ∈ names, 0 < name ∧ name ≤ graph.numVars) :
    (names.forM fun name => (liftM (keepPhase layers name) : Work Unit Unit)).Returns (tool, engine)
      fun _ after => engine.Leads .propagation after.2 ∧
        ∀ literal, layers.Has literal → (literal.var ∈ names ∨ Suggests engine literal) →
          Suggests after.2 literal := by
  induction names generalizing engine with
  | nil => exact .pure ⟨.refl sound, fun _ _ reason => reason.resolve_left (List.not_mem_nil)⟩
  | cons name rest ih =>
    obtain ⟨⟨positive, inGraph⟩, others⟩ := List.forall_mem_cons.1 inside
    refine .bind (.lift (keepPhase_returns full proper vars sound positive inGraph)) ?_
    rintro _ ⟨_, middle⟩ ⟨rfl, leads, suggests⟩
    have soundMiddle : middle.Sound := leads.sound sound
    have varsMiddle : graph.numVars = middle.numVars := vars.trans (Steps.numVars_eq leads.steps).symm
    refine (ih varsMiddle soundMiddle others).imp ?_
    rintro _ last ⟨further, all⟩
    refine ⟨leads.trans further, fun literal has reason => all literal has ?_⟩
    rw [List.mem_cons, or_assoc, or_left_comm] at reason
    exact reason.imp_right fun known => suggests literal has known

omit [Realm] in
/-- An answer costs the tool what it cost the solver. -/
theorem solveWithin_of_done {solved : Bool}
    (ended : solve engine.trail graph engine.interrupted (start engine.numVars tool.budget) =
      .done solved layers) : solveWithin graph (tool, engine) =
        .done (.ok solved, layers) ({ tool with budget := layers.budget }, engine) := by
  simp only [solveWithin, ended]

omit [Realm] in
/-- So does a refutation. -/
theorem solveWithin_of_failed {cause : Error}
    (ended : solve engine.trail graph engine.interrupted (start engine.numVars tool.budget) =
      .failed cause layers) : solveWithin graph (tool, engine) =
        .done (.error cause, layers) ({ tool with budget := layers.budget }, engine) := by
  simp only [solveWithin, ended]

/-- The last propagation of a run leaves the phases. -/
theorem propagateUnits_finishes {state : Tool Unit × Engine} (sound : state.2.Sound)
    (orderly : state.2.trail.Orderly) :
    (liftM Engine.propagateUnits : Work Unit Unit).Finishes state
      (fun _ after => state.2.SamePhases after.2) fun _ after => state.2.SamePhases after.2 :=
  ⟨Tracks.lift (Engine.tracks_propagateUnits : CnfSimplifier.Tracks Engine.SamePhases _) state,
    .lift (Engine.safe_propagateUnits sound (.inr orderly))⟩

/-- If the solver finds a solution, then a run leaves phases that satisfy every clause of two
literals. -/
theorem run_finishes (sound : engine.Sound) (orderly : engine.trail.Orderly)
    (strict : ¬ Realm.Lenient) {applied : Engine} (isApplied : Probing.Applied applied)
    (propagated : Engine.propagateUnits engine = .done () applied)
    (made : Engine.implications applied = .done graph built) (full : graph.Full) (tool : Tool Unit) :
    let suggests := fun (after : Tool Unit × Engine) => ∀ layers,
      solve applied.trail graph applied.interrupted (start applied.numVars tool.budget) =
        .done true layers →
      ∀ literals ∈ applied.binaries, ∃ literal ∈ literals, Suggests after.2 literal
    run.Finishes (tool, engine) (fun _ after => suggests after) fun _ after => suggests after := by
  intro suggests
  have propagates : Works .propagation Engine.propagateUnits engine _ := Engine.works_propagateUnits
  have leads := ((propagates sound).done_of_eq propagated).1
  have soundApplied : applied.Sound := leads.sound sound
  have builds : Works .propagation Engine.implications applied _ := Engine.works_implications
  obtain ⟨leadsBuilt, sameBuilt, reflects, _⟩ := (builds soundApplied).done_of_eq made
  have soundBuilt : built.Sound := leadsBuilt.sound soundApplied
  have orderlyBuilt : built.trail.Orderly := leadsBuilt.orderly (leads.orderly orderly)
  have edges := Engine.edge_of_implications soundApplied isApplied made
  -- Making the graph leaves all but the source of chance.
  obtain ⟨random, rfl⟩ : ∃ random, built = { applied with random := random } := ⟨_, sameBuilt⟩
  have finishes : (solve applied.trail graph applied.interrupted).Finishes
      (start applied.numVars tool.budget) _ _ :=
    solve_finishes full reflects soundApplied.trail reflects.numVars tool.budget
  unfold run
  refine .step (Run.lift_of_done propagated) (.step (Run.lift_of_done made) ?_)
  split
  next noEdges =>
    refine .pure fun layers _ literals member => ?_
    obtain ⟨x, y, _, links⟩ := Engine.links_of_mem_binaries member
    have edge : graph.Edge x.complement y := edges ▸ links
    exact absurd noEdges (Nat.ne_of_gt (full.numEdges_pos edge))
  cases ended : solve applied.trail graph applied.interrupted (start applied.numVars tool.budget) with
  | stuck why => exact (finishes.safe why ended).elim
  | failed cause layers =>
    obtain ⟨_, _, forced, _⟩ := finishes.ends.failed_of_eq ended
    have none : ∀ after, suggests after := by
      intro after layers solved
      rw [ended] at solved
      cases solved
    refine .step (solveWithin_of_failed ended) (.bind (.imp ⟨.trivial, .lift (safe_assignAll _ soundBuilt ?_)⟩
      (fun _ _ => id) fun _ after _ => none after) fun _ after _ => .fail (none after))
    exact fun literal member => (forced literal member).follows reflects
  | done solved layers =>
    obtain ⟨⟨proper, settled, _⟩, forced⟩ := finishes.ends.done_of_eq ended
    refine .step (solveWithin_of_done ended) (.bind (.of_returns (.lift (assignOpen_returns _ soundBuilt strict
      fun literal member => (forced literal member).follows reflects))) ?_)
    rintro _ ⟨_, assigned⟩ ⟨rfl, leadsAssigned⟩
    have soundAssigned : assigned.Sound := leadsAssigned.sound soundBuilt
    have orderlyAssigned : assigned.trail.Orderly := leadsAssigned.orderly orderlyBuilt
    have varsAssigned : graph.numVars = assigned.numVars :=
      Eq.trans reflects.numVars (Steps.numVars_eq leadsAssigned.steps).symm
    dsimp only
    split
    next isSolved =>
      subst isSolved
      obtain ⟨closed, settles⟩ := settled rfl
      refine .step rfl (.bind (.of_returns (keepPhases_returns full proper varsAssigned soundAssigned
        _ fun name member => ?_)) ?_)
      · have bounds := List.mem_range'_1.1 member
        have same : assigned.trail.numVars = graph.numVars := varsAssigned.symm
        unfold Engine.numVars at bounds
        omega
      rintro _ ⟨_, last⟩ ⟨leadsLast, suggested⟩
      have phases : ∀ after : Tool Unit × Engine, last.SamePhases after.2 → suggests after := by
        intro after same layers' solved' literals member
        obtain rfl : layers = layers' := by
          rw [ended] at solved'
          cases solved'
          rfl
        obtain ⟨literal, inside, has⟩ :=
          exists_has_of_settled soundApplied isApplied edges closed settles member
        refine ⟨literal, inside, (same literal.var).trans (suggested literal has (.inl ?_))⟩
        obtain ⟨present, bound⟩ := proper.inside literal has
        refine List.mem_range'_1.2 ⟨present, ?_⟩
        have same : assigned.trail.numVars = graph.numVars := varsAssigned.symm
        unfold Engine.numVars
        omega
      exact (propagateUnits_finishes (leadsLast.sound soundAssigned)
        (leadsLast.orderly orderlyAssigned)).imp (fun _ => phases) fun _ => phases
    next unsolved =>
      have none : ∀ after, suggests after := by
        intro after layers' solved'
        rw [ended] at solved'
        cases solved'
        exact absurd rfl unsolved
      exact (propagateUnits_finishes soundAssigned orderlyAssigned).imp
        (fun _ after _ => none after) fun _ after _ => none after

end Engine

/-- Once the root literals are applied, the graph of the clauses of two literals is made, and
whatever the steps are limited to, the search in it comes to an end and decides these
clauses. If it finds a solution for a run, then the phases that the run leaves satisfy every
one of them. -/
theorem decides_binaries {engine applied : Engine} (ready : engine.Ready)
    (kept : ∀ clause ∈ engine.arena.liveClauses, ∀ literal ∈ clause.literals,
      ¬ engine.trail.Removed literal.var)
    (propagated : Engine.propagateUnits engine = .done () applied) :
    ∃ graph built, Engine.implications applied = .done graph built ∧
      (∀ budget interrupted, ∃ answer layers,
        (solve applied.trail graph interrupted).attempt (start applied.numVars budget) =
          .done answer layers ∧ Decides applied.binaries answer layers) ∧
      ∀ tool : Tool Unit, ∃ result after, run.attempt (tool, engine) = .done result after ∧
        ∀ layers, solve applied.trail graph applied.interrupted (start applied.numVars tool.budget) =
            .done true layers →
          ∀ literals ∈ applied.binaries, ∃ literal ∈ literals,
            after.2.trail.phase? literal.var = some literal.isPositive := by
  let _ : Realm := .rootLenient
  have sound : engine.Sound := ready.rootSound kept
  have works : Works .propagation Engine.propagateUnits engine _ :=
    Probing.works_propagateUnits ready.settled
  obtain ⟨leads, isApplied⟩ := (works sound).done_of_eq propagated
  have soundApplied : applied.Sound := leads.sound sound
  obtain ⟨graph, built, made, full⟩ := Engine.implications_returns soundApplied
  refine ⟨graph, built, made, fun budget interrupted => ?_, fun tool => ?_⟩
  · exact solve_decides soundApplied isApplied made full budget
  · obtain ⟨result, after, ended, reached⟩ :=
      (run_finishes sound ready.orderly id isApplied propagated made full tool).attempt
    refine ⟨result, after, ended, ?_⟩
    cases result <;> exact reached

/-- Assuming that the first variable is false fails here, so it becomes true for good. -/
theorem decides_binaries_restart :
    ∃ (engine applied : Engine) (graph : Implications) (built : Engine) (layers : TwoSat),
      engine.Ready ∧
      (∀ clause ∈ engine.arena.liveClauses, ∀ literal ∈ clause.literals,
        ¬ engine.trail.Removed literal.var) ∧
      Engine.propagateUnits engine = .done () applied ∧ applied.binaries.length = 4 ∧
      Engine.implications applied = .done graph built ∧
      (solve applied.trail graph false).attempt (start applied.numVars { limit := 100 }) =
        .done (.ok true) layers ∧
      layers.units.size = 2 ∧ Decides applied.binaries (.ok true) layers := by
  obtain ⟨_, start, made, isOpen, _, applied, propagated, clauses, graph, built, implied, answer,
      layers, ended, solution⟩ :
      (Simplifier.addClauses [[1, 2], [1, -2], [-1, 3], [4, 5]]).Returns (.ofVars {} 5)
        fun _ start => start.engine.unsat = false ∧
          Engine.propagateUnits.Returns start.engine fun _ applied =>
            applied.binaries.length = 4 ∧ Engine.implications.Returns applied fun graph _ =>
              (solve applied.trail graph false).attempt.Returns
                (TwoSat.start applied.numVars { limit := 100 }) fun answer layers =>
                  decide (answer = .ok true ∧ layers.units.size = 2) := by
    decide +kernel
  obtain ⟨rfl, units⟩ := of_decide_eq_true solution
  obtain ⟨ready, kept⟩ := Simplifier.ready_of_ofClauses made (by decide) isOpen
  obtain ⟨graph', _, same, decides, _⟩ := decides_binaries ready kept propagated
  cases implied.symm.trans same
  obtain ⟨answer', layers', solved, decided⟩ := decides { limit := 100 } false
  cases ended.symm.trans solved
  exact ⟨start.engine, applied, graph, built, layers, ready, kept, propagated, clauses,
    implied, ended, units, decided⟩

end TwoSat

end CnfSimplifier
