import CnfSimplifier.Proofs.ExactProbing

/-!
# Backtracking

Values are given at the root, by decisions and by propagation, and taken back when levels are
closed. On a trail that is *layered* the table of values, the list of true literals, the starts
of the levels and the level of each variable tell the same story: a variable has a value exactly
if a literal of it stands on the trail, once, and its level is the number of levels that begin
at or before its place.

Each operation keeps a trail layered, whatever the clauses are and however they are listed. It
leaves what stands below the start of an open level as it was when the level was opened. On a
layered trail the literals determine the values, so closing a level brings back the values
together with the literals.
-/
namespace CnfSimplifier

namespace Trail

/-! ## Layered trails -/

/-- Values, literals, levels and the head of a trail agree. -/
structure Layered (trail : Trail) : Prop where
  distinct : (trail.literals.toList.map Literal.var).Nodup
  named : ∀ literal ∈ trail.literals.toList, 0 < literal.var
  /-- A variable has a value exactly if a literal of it is on the trail, and then that one's. -/
  valued : ∀ name sign, trail.value? name = some (some sign) ↔
    ∃ literal ∈ trail.literals.toList, literal.var = name ∧ literal.isPositive = sign
  ascending : trail.levels.toList.Pairwise (· ≤ ·)
  within : ∀ start ∈ trail.levels.toList, start ≤ trail.literals.size
  head : trail.head ≤ trail.literals.size
  /-- The level of a variable is the number of levels that begin at or before its place. -/
  graded : ∀ (place : Nat) (literal : Literal), trail.literals[place]? = some literal →
    (trail.vars[literal.var]?).map VarState.level = some (trail.levels.toList.countP (· ≤ place))

variable {trail after start state : Trail} {literal : Literal}

/-- An empty trail has no level. -/
theorem layered_ofVars (numVars : Nat) : (ofVars numVars).Layered where
  distinct := .nil
  named := by simp [ofVars]
  valued name sign := by
    simp only [ofVars, value?, Array.getElem?_replicate]
    split <;> simp
  ascending := .nil
  within := by simp [ofVars]
  head := le_rfl
  graded place literal found := by simp [ofVars] at found

namespace Layered

theorem value_of_mem (layered : trail.Layered) (member : literal ∈ trail.literals.toList) :
    trail.value? literal.var = some (some literal.isPositive) :=
  (layered.valued _ _).2 ⟨literal, member, rfl, rfl⟩

/-- Literals of the trail have places in the table. -/
theorem var_lt (layered : trail.Layered) (member : literal ∈ trail.literals.toList) :
    literal.var < trail.vars.size := by
  obtain ⟨state, found, _⟩ := Option.map_eq_some_iff.1 (layered.value_of_mem member)
  exact (Array.getElem?_eq_some_iff.1 found).1

/-- A variable without a value has no literal on the trail. -/
theorem absent (layered : trail.Layered) {name : Nat} (isNone : trail.value? name = some none) :
    name ∉ trail.literals.toList.map Literal.var := by
  intro member
  obtain ⟨literal, onTrail, rfl⟩ := List.mem_map.1 member
  rw [layered.value_of_mem onTrail] at isNone
  cases isNone

/-- The literals determine the values. -/
theorem values_eq (layered : trail.Layered) (layeredAfter : after.Layered)
    (size : after.vars.size = trail.vars.size) (literals : after.literals = trail.literals) :
    after.values = trail.values := by
  have same : ∀ name sign, after.value? name = some (some sign) ↔
      trail.value? name = some (some sign) := by
    intro name sign
    rw [layered.valued, layeredAfter.valued, literals]
  apply Array.ext_getElem?
  intro name
  unfold values
  rw [Array.getElem?_map, Array.getElem?_map]
  change after.value? name = trail.value? name
  by_cases inside : name < trail.vars.size
  · obtain ⟨value, isValue⟩ : ∃ value, trail.value? name = some value :=
      ⟨_, by rw [value?, Array.getElem?_eq_getElem inside, Option.map_some]⟩
    obtain ⟨other, isOther⟩ : ∃ other, after.value? name = some other :=
      ⟨_, by rw [value?, Array.getElem?_eq_getElem (size ▸ inside), Option.map_some]⟩
    rw [isValue, isOther, Option.some.injEq]
    apply Option.ext
    intro sign
    have agree := same name sign
    rwa [isValue, isOther, Option.some.injEq, Option.some.injEq] at agree
  · have outside : trail.vars.size ≤ name := Nat.le_of_not_lt inside
    rw [value?, value?, Array.getElem?_eq_none (size ▸ outside), Array.getElem?_eq_none outside]

/-- The head can be moved along the trail. -/
theorem of_head (layered : trail.Layered) {head : Nat} (onTrail : head ≤ trail.literals.size) :
    Layered { trail with head := head } :=
  ⟨layered.distinct, layered.named, layered.valued, layered.ascending, layered.within, onTrail,
    layered.graded⟩

/-- A literal that is free can be assigned at the current level. -/
theorem imply (layered : trail.Layered) (present : 0 < literal.var)
    (isOpen : trail.literalValue? literal = some none)
    (pushed : trail.imply literal = some after) : after.Layered := by
  have isNone := value?_of_open isOpen
  have absent := layered.absent isNone
  obtain ⟨vars, literals, levels, head⟩ := push_eq_some pushed
  have list : after.literals.toList = trail.literals.toList ++ [literal] := by
    rw [literals, Array.toList_push]
  have longer : trail.literals.size ≤ after.literals.size := by
    rw [literals, Array.size_push]
    exact Nat.le_succ _
  constructor
  · rw [list, List.map_append]
    exact List.nodup_append.2 ⟨layered.distinct, by simp, by
      rintro name member _ isNew rfl
      rw [List.map_singleton, List.mem_singleton] at isNew
      exact absent (isNew ▸ member)⟩
  · rw [list]
    exact List.forall_mem_append.2 ⟨layered.named, by simpa using present⟩
  · intro name sign
    rw [value?_push pushed, list]
    split
    next same =>
      subst same
      rw [isNone, Option.map_some, Option.some.injEq, Option.some.injEq]
      constructor
      · intro isSign
        exact ⟨literal, by simp, rfl, isSign⟩
      · rintro ⟨other, member, same, isSign⟩
        rcases List.mem_append.1 member with onTrail | isNew
        · exact absurd (List.mem_map.2 ⟨other, onTrail, same⟩) absent
        · rw [← isSign, List.mem_singleton.1 isNew]
    next different =>
      rw [layered.valued]
      simp only [List.mem_append, List.mem_singleton, or_and_right, exists_or, exists_eq_left]
      exact (or_iff_left fun ⟨same, _⟩ => different same.symm).symm
  · rw [levels]
    exact layered.ascending
  · rw [levels]
    exact fun start isStart => (layered.within start isStart).trans longer
  · rw [head]
    exact layered.head.trans longer
  · intro place other found
    rw [literals, Array.getElem?_push] at found
    rw [vars, levels, Array.getElem?_modify]
    split at found
    next atEnd =>
      -- All levels begin at or before the new place.
      obtain rfl := Option.some.inj found
      have all : trail.levels.toList.countP (· ≤ place) = trail.levels.size := by
        rw [List.countP_eq_length.2, Array.length_toList]
        intro start isStart
        simpa [atEnd] using layered.within start isStart
      obtain ⟨state, isState, _⟩ := Option.map_eq_some_iff.1 isNone
      rw [if_pos rfl, isState, all]
      rfl
    next =>
      have onTrail : other ∈ trail.literals.toList :=
        Array.mem_toList_iff.2 (Array.mem_of_getElem? found)
      have different : literal.var ≠ other.var := fun same =>
        absent (List.mem_map.2 ⟨other, onTrail, same.symm⟩)
      rw [if_neg different]
      exact layered.graded place other found

/-- A level can be opened at the end of the trail. -/
theorem mark (layered : trail.Layered) :
    Layered { trail with levels := trail.levels.push trail.literals.size } where
  distinct := layered.distinct
  named := layered.named
  valued := layered.valued
  ascending := by
    rw [Array.toList_push]
    refine List.pairwise_append.2 ⟨layered.ascending, by simp, fun start isStart last isLast => ?_⟩
    rw [List.mem_singleton.1 isLast]
    exact layered.within start isStart
  within := by
    rw [Array.toList_push]
    exact List.forall_mem_append.2 ⟨layered.within, by simp⟩
  head := layered.head
  graded place literal found := by
    have inside : place < trail.literals.size := (Array.getElem?_eq_some_iff.1 found).1
    have later : ¬ trail.literals.size ≤ place := Nat.not_le_of_lt inside
    rw [Array.toList_push, List.countP_append, List.countP_singleton, if_neg (by simpa using later)]
    exact layered.graded place literal found

end Layered

/-! ## Closing levels -/

/-- Where the literals above a level begin. -/
def floor (trail : Trail) (level : Nat) : Nat := trail.levels.getD level trail.literals.size

/-- What is left when levels are closed: the levels up to the given one and the literals below
the next. -/
structure Closes (trail : Trail) (level : Nat) (after : Trail) : Prop where
  layered : after.Layered
  size : after.vars.size = trail.vars.size
  literals : after.literals.toList = trail.literals.toList.take (trail.floor level)
  levels : after.levels.toList = trail.levels.toList.take level

theorem split_levels {starts : List Nat} {level start : Nat} (isStart : starts[level]? = some start) :
    starts.take level ++ start :: starts.drop (level + 1) = starts := by
  obtain ⟨inside, here⟩ := List.getElem?_eq_some_iff.1 isStart
  rw [← here, List.getElem_cons_drop, List.take_append_drop]

/-- The earlier levels do not begin after a level. -/
theorem le_of_mem_take_levels {starts : List Nat} {level start earlier : Nat}
    (ascending : starts.Pairwise (· ≤ ·)) (isStart : starts[level]? = some start)
    (member : earlier ∈ starts.take level) : earlier ≤ start := by
  rw [← split_levels isStart, List.pairwise_append] at ascending
  exact ascending.2.2 earlier member start List.mem_cons_self

/-- Below the start of a level only the earlier levels count. -/
theorem countP_take_levels {starts : List Nat} {level start place : Nat}
    (ascending : starts.Pairwise (· ≤ ·)) (isStart : starts[level]? = some start)
    (below : place < start) :
    (starts.take level).countP (· ≤ place) = starts.countP (· ≤ place) := by
  rw [← split_levels isStart, List.pairwise_append, List.pairwise_cons] at ascending
  have none_ : (start :: starts.drop (level + 1)).countP (· ≤ place) = 0 := by
    refine List.countP_eq_zero.2 fun other isLater => ?_
    have later : start ≤ other := by
      rcases List.mem_cons.1 isLater with rfl | member
      · exact le_rfl
      · exact ascending.2.1.1 other member
    simpa using by omega
  conv_rhs => rw [← split_levels isStart, List.countP_append, none_, Nat.add_zero]

/-- The literals from a start on are those of levels above it, and none of them is left. -/
theorem Layered.of_unassign (layered : trail.Layered) {level start : Nat} {middle : Trail}
    (isStart : trail.levels[level]? = some start)
    (undone : trail.unassign (trail.literals.toList.drop start) = some middle)
    (literals : after.literals.toList = trail.literals.toList.take start)
    (levels : after.levels.toList = trail.levels.toList.take level)
    (vars : after.vars = middle.vars) (head : after.head ≤ start) : after.Layered := by
  have isEntry : trail.levels.toList[level]? = some start := by
    rw [Array.getElem?_toList, isStart]
  have bound : start ≤ trail.literals.size := layered.within start (List.mem_of_getElem? isEntry)
  have size : after.literals.size = start := by
    rw [← Array.length_toList, literals, List.length_take, Array.length_toList]
    exact Nat.min_eq_left bound
  have distinct := layered.distinct
  rw [← List.take_append_drop start trail.literals.toList, List.map_append,
    List.nodup_append] at distinct
  obtain ⟨distinctKept, _, apart⟩ := distinct
  have kept : ∀ literal ∈ after.literals.toList, literal ∈ trail.literals.toList ∧
      literal.var ∉ (trail.literals.toList.drop start).map Literal.var := by
    intro literal member
    rw [literals] at member
    exact ⟨List.mem_of_mem_take member, fun isDropped =>
      apart _ (List.mem_map_of_mem member) _ isDropped rfl⟩
  constructor
  case distinct =>
    rw [literals]
    exact distinctKept
  case named => exact fun literal member => layered.named literal (kept literal member).1
  case valued =>
    intro name sign
    have value : after.value? name = middle.value? name := by rw [value?, vars, value?]
    rw [value, (unassign_spec undone).2.2]
    split
    next isDropped =>
      constructor
      · intro isSome
        obtain ⟨_, _, isNone⟩ := Option.map_eq_some_iff.1 isSome
        cases isNone
      · rintro ⟨literal, member, rfl, _⟩
        exact absurd isDropped (kept literal member).2
    next isKept =>
      rw [layered.valued]
      constructor
      · rintro ⟨literal, member, rfl, isSign⟩
        refine ⟨literal, ?_, rfl, isSign⟩
        rw [← List.take_append_drop start trail.literals.toList] at member
        rw [literals]
        exact (List.mem_append.1 member).resolve_right fun isDropped =>
          isKept (List.mem_map_of_mem isDropped)
      · rintro ⟨literal, member, rest⟩
        exact ⟨literal, (kept literal member).1, rest⟩
  case ascending =>
    rw [levels]
    exact layered.ascending.take
  case within =>
    rw [levels, size]
    exact fun first isFirst => le_of_mem_take_levels layered.ascending isEntry isFirst
  case head => exact head.trans_eq size.symm
  case graded =>
    intro place literal found
    have inside : place < start := size ▸ (Array.getElem?_eq_some_iff.1 found).1
    have member : literal ∈ after.literals.toList :=
      Array.mem_toList_iff.2 (Array.mem_of_getElem? found)
    have earlier : trail.literals[place]? = some literal := by
      rw [← Array.getElem?_toList, literals, List.getElem?_take_of_lt inside,
        Array.getElem?_toList] at found
      exact found
    have grade := layered.graded place literal earlier
    rw [← countP_take_levels layered.ascending isEntry inside] at grade
    rw [vars, levels, vars_unassign undone, if_neg (kept literal member).2]
    exact grade

/-- Levels of a layered trail can be closed. -/
theorem Layered.exists_cancelUntil (layered : trail.Layered) (level : Nat) :
    ∃ after, trail.cancelUntil level = some after ∧ trail.Closes level after := by
  unfold cancelUntil
  split
  next none_ =>
    have closed : trail.levels.size ≤ level := Array.getElem?_eq_none_iff.1 none_
    refine ⟨trail, rfl, layered, rfl, ?_, ?_⟩
    · simp [floor, closed]
    · rw [List.take_of_length_le (by simpa using closed)]
  next start isStart =>
    have floor : trail.floor level = start := by
      simp [Trail.floor, Array.getD_eq_getD_getElem?, isStart]
    obtain ⟨middle, undone⟩ : ∃ middle,
        trail.unassign (trail.literals.toList.drop start) = some middle :=
      exists_unassign fun literal member => layered.var_lt (List.mem_of_mem_drop member)
    obtain ⟨sameLiterals, sameLevels, _⟩ := unassign_spec undone
    have literals : (middle.literals.take start).toList = trail.literals.toList.take start := by
      simp [sameLiterals]
    have levels : (middle.levels.take level).toList = trail.levels.toList.take level := by
      simp [sameLevels]
    rw [undone]
    refine ⟨_, rfl, ?_, (sameFlags_unassign undone).size, floor.symm ▸ literals, levels⟩
    exact layered.of_unassign isStart undone literals levels rfl (Nat.min_le_right _ _)

/-! ## Propagation -/

/-- Literals were assigned at the current level, and nothing else happened to what stood there. -/
structure Passes (trail after : Trail) : Prop where
  layered : after.Layered
  size : after.vars.size = trail.vars.size
  levels : after.levels = trail.levels
  appended : trail.literals.toList <+: after.literals.toList

theorem Passes.refl (layered : trail.Layered) : trail.Passes trail :=
  ⟨layered, rfl, rfl, List.prefix_rfl⟩

theorem Passes.trans {middle : Trail} (first : trail.Passes middle) (second : middle.Passes after) :
    trail.Passes after :=
  ⟨second.layered, second.size.trans first.size, second.levels.trans first.levels,
    first.appended.trans second.appended⟩

/-- An implied literal belongs to the current level. -/
theorem Layered.passes_imply (layered : trail.Layered) (present : 0 < literal.var)
    (isOpen : trail.literalValue? literal = some none)
    (pushed : trail.imply literal = some after) : trail.Passes after := by
  obtain ⟨_, literals, levels, _⟩ := push_eq_some pushed
  refine ⟨layered.imply present isOpen pushed, (sameFlags_push pushed).size, levels, ?_⟩
  rw [literals, Array.toList_push]
  exact List.prefix_append _ _

/-- Arena and index are over a number of variables, counted with the entry of none. -/
structure Spans (arena : Arena) (index : Occurrences) (count : Nat) : Prop where
  clauses : ∀ clause ∈ arena.liveClauses, ∀ literal ∈ clause.literals,
    0 < literal.var ∧ literal.var < count
  lists : 2 * count ≤ index.entries.size

instance (arena : Arena) (index : Occurrences) (count : Nat) :
    Decidable (Spans arena index count) :=
  decidable_of_iff ((∀ clause ∈ arena.liveClauses, ∀ literal ∈ clause.literals,
      0 < literal.var ∧ literal.var < count) ∧ 2 * count ≤ index.entries.size)
    ⟨fun ⟨clauses, lists⟩ => ⟨clauses, lists⟩, fun ⟨clauses, lists⟩ => ⟨clauses, lists⟩⟩

variable {arena : Arena} {index : Occurrences}

/-- There is a list for each literal of the variables. -/
theorem Spans.exists_list {count : Nat} (spans : Spans arena index count)
    (inside : literal.var < count) : ∃ handles, index.list? literal = some handles := by
  have bound : literal.index < index.entries.size := by
    have := spans.lists
    change literal.code.toNat / 2 < count at inside
    change literal.code.toNat < _
    omega
  exact ⟨_, by rw [Occurrences.list?_eq, Array.getElem?_eq_getElem bound, Option.map_some]⟩

/-- A visit assigns free literals, whatever the listed clauses are. What is left to do does not
become more by it. -/
theorem Layered.visit_finishes {falsified : Literal} {handles : List Handle}
    (layered : trail.Layered) (spans : Spans arena index trail.vars.size) :
    (visit arena falsified handles).Finishes trail (fun conflict after =>
      trail.Passes after ∧ (conflict = none → after.head = trail.head ∧
        after.literals.size + after.numUnassigned = trail.literals.size + trail.numUnassigned))
      fun _ _ => False := by
  induction handles generalizing trail with
  | nil => exact .pure ⟨.refl layered, fun _ => ⟨rfl, rfl⟩⟩
  | cons handle rest ih =>
    unfold visit
    split
    next => exact ih layered spans
    next clause found =>
    split
    next => exact ih layered spans
    next alive =>
      rw [Bool.or_eq_true, not_or] at alive
      have isLive : clause ∈ arena.liveClauses := by
        apply Arena.mem_liveClauses_of_live?
        exact Arena.live?_of_alive found alive.1
      obtain ⟨standing, scanned⟩ : ∃ standing,
          trail.standing? clause.literals none = some standing :=
        exists_standing? fun literal inside => (spans.clauses clause isLive literal inside).2
      refine .step (Run.read_of_eq_some scanned) ?_
      cases standing with
      | settled => exact ih layered spans
      | unit literal =>
        rcases standing?_unit scanned with ⟨impossible, _⟩ | ⟨_, member, isOpen, _⟩
        · cases impossible
        obtain ⟨present, inside⟩ := spans.clauses clause isLive literal member
        obtain ⟨after, pushed⟩ := exists_push inside trail.level
        refine .step (Run.update_of_eq_some pushed) ?_
        have passes := layered.passes_imply present isOpen pushed
        refine (ih passes.layered (passes.size.symm ▸ spans)).imp ?_ fun _ _ no => no
        rintro conflict last ⟨passesLast, balance⟩
        refine ⟨passes.trans passesLast, fun isNone => ?_⟩
        obtain ⟨head, balance⟩ := balance isNone
        obtain ⟨_, list, _, sameHead⟩ := push_eq_some pushed
        have fewer := numUnassigned_push isOpen pushed
        refine ⟨head.trans sameHead, balance.trans ?_⟩
        rw [list, Array.size_push]
        omega
      | falsified =>
        refine .step rfl (.pure ⟨?_, nofun⟩)
        exact ⟨layered.of_head le_rfl, rfl, rfl, List.prefix_rfl⟩

/-- Each round takes one literal off the queue, and a literal enters it only when a variable
gets a value. -/
theorem Layered.propagateLoop_finishes (fuel : Nat) (layered : trail.Layered)
    (spans : Spans arena index trail.vars.size)
    (enough : trail.literals.size - trail.head + trail.numUnassigned < fuel) :
    (propagateLoop arena index fuel).Finishes trail (fun _ after => trail.Passes after)
      fun _ _ => False := by
  induction fuel generalizing trail with
  | zero => exact absurd enough (Nat.not_lt_zero _)
  | succ fuel ih =>
    unfold propagateLoop
    refine .step rfl ?_
    split
    next => exact .pure (.refl layered)
    next literal here =>
      have inTrail : trail.head < trail.literals.size := (Array.getElem?_eq_some_iff.1 here).1
      have onTrail : literal ∈ trail.literals.toList :=
        Array.mem_toList_iff.2 (Array.mem_of_getElem? here)
      have inside : literal.complement.var < trail.vars.size := by
        rw [Literal.var_complement (layered.named literal onTrail)]
        exact layered.var_lt onTrail
      obtain ⟨handles, list⟩ := spans.exists_list inside
      have layeredNext : Layered { trail with head := trail.head + 1 } := layered.of_head inTrail
      refine .step rfl (.step (Run.access_of_eq_some list) ?_)
      refine (layeredNext.visit_finishes spans).bind fun conflict after ⟨passes, balance⟩ => ?_
      have passed : trail.Passes after :=
        ⟨passes.layered, passes.size, passes.levels, passes.appended⟩
      cases conflict with
      | some handle => exact .pure passed
      | none =>
        obtain ⟨head, balance⟩ := balance rfl
        have bound := passed.layered.head
        change after.head = trail.head + 1 at head
        change _ = trail.literals.size + trail.numUnassigned at balance
        refine (ih passed.layered (passed.size.symm ▸ spans) (by omega)).imp ?_ fun _ _ no => no
        exact fun _ _ => passed.trans

/-- Propagation comes to an end over any clauses and lists of the variables. -/
theorem Layered.propagate_finishes (layered : trail.Layered)
    (spans : Spans arena index trail.vars.size) :
    (propagate arena index).Finishes trail (fun _ after => trail.Passes after) fun _ _ => False :=
  .step rfl (layered.propagateLoop_finishes _ spans (Nat.lt_succ_self _))

/-! ## What stands below an open level -/

/-- A level was opened in an earlier state, and what stood there then stands below the level
still. -/
structure Above (state trail : Trail) : Prop where
  size : trail.vars.size = state.vars.size
  literals : state.literals.toList <+: trail.literals.toList
  levels : state.levels.toList ++ [state.literals.size] <+: trail.levels.toList

theorem Above.passes (above : state.Above trail) (passes : trail.Passes after) :
    state.Above after :=
  ⟨passes.size.trans above.size, above.literals.trans passes.appended,
    passes.levels ▸ above.levels⟩

/-- The level is known by its number. -/
theorem Above.getElem?_levels (above : state.Above trail) :
    trail.levels[state.level]? = some state.literals.size := by
  obtain ⟨later, split⟩ := above.levels
  have number : state.level = state.levels.toList.length := Array.length_toList.symm
  rw [← Array.getElem?_toList, ← split, List.append_assoc, number,
    List.getElem?_append_right le_rfl, Nat.sub_self]
  rfl

theorem Above.floor_eq (above : state.Above trail) :
    trail.floor state.level = state.literals.size := by
  simp [floor, Array.getD_eq_getD_getElem?, above.getElem?_levels]

/-- Levels begin at or after the ones that were opened before them. -/
theorem Above.le_floor (above : state.Above trail) (layered : trail.Layered) {level : Nat}
    (later : state.level < level) : state.literals.size ≤ trail.floor level := by
  have isOwn := above.getElem?_levels
  cases isLevel : trail.levels[level]? with
  | none =>
    have floor : trail.floor level = trail.literals.size := by
      simp [floor, Array.getD_eq_getD_getElem?, isLevel]
    rw [floor]
    simpa using above.literals.length_le
  | some start =>
    have floor : trail.floor level = start := by
      simp [floor, Array.getD_eq_getD_getElem?, isLevel]
    rw [floor]
    rw [← Array.getElem?_toList] at isOwn isLevel
    obtain ⟨inside, here⟩ := List.getElem?_eq_some_iff.1 isOwn
    obtain ⟨insideLevel, hereLevel⟩ := List.getElem?_eq_some_iff.1 isLevel
    rw [← here, ← hereLevel]
    exact List.pairwise_iff_getElem.1 layered.ascending _ _ inside insideLevel later

/-- What stands below a level is not touched when later ones are closed. -/
theorem Above.closes (above : state.Above trail) (layered : trail.Layered) {level : Nat}
    (later : state.level < level) (closes : trail.Closes level after) : state.Above after where
  size := closes.size.trans above.size
  literals := by
    rw [closes.literals, List.prefix_take_iff, Array.length_toList]
    exact ⟨above.literals, above.le_floor layered later⟩
  levels := by
    rw [closes.levels, List.prefix_take_iff, List.length_append, Array.length_toList]
    exact ⟨above.levels, later⟩

/-- Closing a level brings back what was there when it was opened. -/
theorem Above.restores (above : state.Above trail) (layeredState : state.Layered)
    (closes : trail.Closes state.level after) :
    after.values = state.values ∧ after.literals = state.literals := by
  have literals : after.literals = state.literals := by
    apply Array.toList_inj.1
    rw [closes.literals, above.floor_eq, ← Array.length_toList]
    exact (List.prefix_iff_eq_take.1 above.literals).symm
  exact ⟨layeredState.values_eq closes.layered (closes.size.trans above.size) literals, literals⟩

/-! ## Operations -/

/-- An operation on a trail. -/
inductive Operation where
  /-- Close all levels and assign a literal at the root. -/
  | root (literal : Literal)
  /-- Open a level with a literal. -/
  | decision (literal : Literal)
  | propagation (arena : Arena) (index : Occurrences)
  /-- Close the levels above the given one. -/
  | cancel (level : Nat)

namespace Operation

def perform : Operation → Run Trail Unit
  | root literal => assignAtRoot literal
  | decision literal => Run.update fun trail => trail.openLevel literal
  | propagation arena index => do
    let _ ← propagate arena index
    return ()
  | cancel level => Run.update fun trail => trail.cancelUntil level

/-- Only a free literal can be decided on, and propagation needs clauses and lists over the
variables of the trail. -/
def Able : Operation → Trail → Prop
  | root literal, _ => 0 < literal.var
  | decision literal, trail => 0 < literal.var ∧ trail.literalValue? literal = some none
  | propagation arena index, trail => Spans arena index trail.vars.size
  | cancel _, _ => True

/-- The states in which the open levels were opened, after an operation. -/
def remember : Operation → Trail → List Trail → List Trail
  | root _, _, _ => []
  | decision _, trail, opened => opened ++ [trail]
  | propagation _ _, _, opened => opened
  | cancel level, _, opened => opened.take level

end Operation

/-- Trails that operations lead to, with the states in which the open levels were opened. An
operation may fail; the next one goes on from where it ended. -/
inductive Chronicle (numVars : Nat) : Trail → List Trail → Prop
  | start : Chronicle numVars (.ofVars numVars) []
  | step {trail after : Trail} {opened : List Trail} {operation : Operation}
      {result : Except Error Unit} (earlier : Chronicle numVars trail opened)
      (able : operation.Able trail)
      (performed : operation.perform.attempt trail = .done result after) :
      Chronicle numVars after (operation.remember trail opened)

/-- The trail is layered, and what stood where each open level was opened stands below it. -/
structure Recorded (opened : List Trail) (trail : Trail) : Prop where
  layered : trail.Layered
  count : opened.length = trail.level
  above : ∀ (level : Nat) (state : Trail), opened[level]? = some state →
    state.Layered ∧ state.level = level ∧ state.Above trail

variable {opened : List Trail} {operation : Operation}

/-- The places where levels start are kept. -/
theorem Recorded.passes (recorded : Recorded opened trail) (passes : trail.Passes after) :
    Recorded opened after where
  layered := passes.layered
  count := by rw [level, passes.levels, recorded.count, level]
  above level state isOpened := by
    obtain ⟨layered, isLevel, above⟩ := recorded.above level state isOpened
    exact ⟨layered, isLevel, above.passes passes⟩

/-- Closing levels forgets what was recorded about them. -/
theorem Recorded.closes (recorded : Recorded opened trail) {level : Nat}
    (closes : trail.Closes level after) : Recorded (opened.take level) after where
  layered := closes.layered
  count := by
    rw [List.length_take, recorded.count, Trail.level, Trail.level, ← Array.length_toList,
      ← Array.length_toList, closes.levels, List.length_take]
  above place state isOpened := by
    rw [List.getElem?_take] at isOpened
    split at isOpened
    next below =>
      obtain ⟨layered, rfl, above⟩ := recorded.above place state isOpened
      exact ⟨layered, rfl, above.closes recorded.layered below closes⟩
    next => cases isOpened

/-- A level is opened on top of the others. -/
theorem Recorded.mark (recorded : Recorded opened trail) :
    Recorded (opened ++ [trail])
      { trail with levels := trail.levels.push trail.literals.size } where
  layered := recorded.layered.mark
  count := by simp [recorded.count, level]
  above place state isOpened := by
    rw [List.getElem?_append] at isOpened
    split at isOpened
    next =>
      obtain ⟨layered, isLevel, above⟩ := recorded.above place state isOpened
      refine ⟨layered, isLevel, above.size, above.literals, ?_⟩
      rw [Array.toList_push]
      exact above.levels.trans (List.prefix_append _ _)
    next atEnd =>
      rw [List.getElem?_singleton] at isOpened
      split at isOpened
      next isLast =>
        obtain rfl := Option.some.inj isOpened
        have count := recorded.count
        refine ⟨recorded.layered, by omega, rfl, List.prefix_rfl, [], ?_⟩
        rw [Array.toList_push, List.append_nil]
      next => cases isOpened

/-- Assigning at the root closes all levels, and it fails without doing anything else. -/
theorem Layered.assignAtRoot_finishes (layered : trail.Layered) (present : 0 < literal.var) :
    ∃ closed, trail.cancelUntil 0 = some closed ∧ trail.Closes 0 closed ∧
      (assignAtRoot literal).Finishes trail (fun _ after => closed.Passes after)
        fun _ after => after = closed := by
  obtain ⟨closed, cancelled, closes⟩ := layered.exists_cancelUntil 0
  refine ⟨closed, cancelled, closes, ?_⟩
  unfold assignAtRoot
  refine .step (Run.update_of_eq_some cancelled) (.step rfl ?_)
  split
  next => exact .fail rfl
  next inRange =>
    have inside : literal.var < closed.vars.size := by
      unfold numVars at inRange
      omega
    obtain ⟨value, isValue⟩ : ∃ value, closed.value? literal.var = some value :=
      ⟨_, by rw [value?, Array.getElem?_eq_getElem inside, Option.map_some]⟩
    refine .step (Run.access_of_eq_some isValue) ?_
    cases value with
    | none =>
      obtain ⟨after, pushed⟩ := exists_push inside 0
      have atRoot : closed.level = 0 := by
        rw [level, ← Array.length_toList, closes.levels]
        rfl
      have isOpen : closed.literalValue? literal = some none := by
        rw [literalValue?, isValue]
        rfl
      refine .of_returns ⟨(), after, Run.update_of_eq_some pushed, ?_⟩
      exact closes.layered.passes_imply present isOpen (by rw [Trail.imply, atRoot, pushed])
    | some sign =>
      dsimp only
      split
      · exact .pure (.refl closes.layered)
      · exact .fail rfl

/-- An operation comes to an end, and the record is kept. -/
theorem Recorded.performs (recorded : Recorded opened trail) (able : operation.Able trail) :
    operation.perform.Finishes trail
      (fun _ after => Recorded (operation.remember trail opened) after)
      fun _ after => Recorded (operation.remember trail opened) after := by
  cases operation with
  | root literal =>
    obtain ⟨closed, _, closes, finishes⟩ := recorded.layered.assignAtRoot_finishes able
    have recordedClosed : Recorded [] closed := recorded.closes closes
    refine finishes.imp (fun _ _ passes => recordedClosed.passes passes) ?_
    rintro _ _ rfl
    exact recordedClosed
  | decision literal =>
    obtain ⟨present, isOpen⟩ := able
    let marked : Trail := { trail with levels := trail.levels.push trail.literals.size }
    obtain ⟨state, found, _⟩ := literalValue?_eq_some.1 isOpen
    have inside : literal.var < marked.vars.size := (Array.getElem?_eq_some_iff.1 found).1
    obtain ⟨after, pushed⟩ := exists_push inside marked.level
    have opens : Run.update (fun trail => openLevel trail literal) trail = .done () after :=
      Run.update_of_eq_some pushed
    refine .of_returns ⟨(), after, opens, ?_⟩
    exact recorded.mark.passes (recorded.layered.mark.passes_imply present isOpen pushed)
  | propagation arena index =>
    have finishes := recorded.layered.propagate_finishes able
    refine (finishes.imp (fun _ _ passes => passes) fun _ _ no => no.elim).bind ?_
    exact fun _ after passes => .pure (recorded.passes passes)
  | cancel level =>
    obtain ⟨after, cancelled, closes⟩ := recorded.layered.exists_cancelUntil level
    have ended : Run.update (fun trail => cancelUntil trail level) trail = .done () after :=
      Run.update_of_eq_some cancelled
    exact .of_returns ⟨(), after, ended, recorded.closes closes⟩

/-- Whatever happened, the open levels are recorded as they were opened. -/
theorem Chronicle.recorded {numVars : Nat} (chronicle : Chronicle numVars trail opened) :
    Recorded opened trail := by
  induction chronicle with
  | start => exact ⟨layered_ofVars numVars, rfl, by simp⟩
  | step earlier able performed recorded =>
    obtain ⟨result, after, again, holds⟩ := (recorded.performs able).attempt
    rw [performed, Outcome.done.injEq] at again
    obtain ⟨rfl, rfl⟩ := again
    split at holds
    · exact holds
    · exact holds

/-- After any operations the trail is layered. Closing an open level brings back the values and
the literals of the state in which it was opened, a refusal at the root leaves what closing all
levels leaves, and no operation gets stuck. -/
theorem restored_of_chronicle {numVars : Nat} (chronicle : Chronicle numVars trail opened) :
    trail.Layered ∧
    (∀ level < trail.level, ∃ state closed, opened[level]? = some state ∧
      trail.cancelUntil level = some closed ∧
      closed.values = state.values ∧ closed.literals = state.literals) ∧
    (∀ literal : Literal, 0 < literal.var → ∀ cause after,
      assignAtRoot literal trail = .failed cause after → trail.cancelUntil 0 = some after) ∧
    ∀ operation : Operation, operation.Able trail →
      ∃ result after, operation.perform.attempt trail = .done result after := by
  have recorded := chronicle.recorded
  refine ⟨recorded.layered, ?_, ?_, ?_⟩
  · intro level below
    have inside : level < opened.length := recorded.count ▸ below
    have isOpened : opened[level]? = some opened[level] := List.getElem?_eq_getElem inside
    obtain ⟨layeredState, isLevel, above⟩ := recorded.above level _ isOpened
    obtain ⟨closed, cancelled, closes⟩ := recorded.layered.exists_cancelUntil level
    refine ⟨_, closed, isOpened, cancelled, above.restores layeredState ?_⟩
    rw [isLevel]
    exact closes
  · intro literal present cause after failed
    obtain ⟨closed, cancelled, _, finishes⟩ := recorded.layered.assignAtRoot_finishes present
    rw [cancelled, finishes.ends.failed_of_eq failed]
  · intro operation able
    obtain ⟨result, after, ended, _⟩ := (recorded.performs able).attempt
    exact ⟨result, after, ended⟩

/-- A decision leads to three more literals, and all four can be taken back. -/
theorem restored_of_chronicle_decision :
    ∃ trail opened closed, Chronicle 4 trail opened ∧
      trail.literals.toList.map Literal.toInt = [1, 2, -3, 4] ∧
      trail.cancelUntil 0 = some closed ∧ closed.values = (ofVars 4).values ∧
      closed.literals = #[] := by
  obtain ⟨_, made, _, _, decided, isDecided, _, after, isAfter, spans, literals, isOpen⟩ :
      (Simplifier.addClauses [[-1, 2], [-2, 3, 4], [-2, -3]]).Returns (.ofVars {} 4) fun _ made =>
        (Operation.decision (.ofVar 1 true)).perform.attempt.Returns (ofVars 4) fun _ decided =>
          (Operation.propagation made.engine.arena made.engine.index).perform.attempt.Returns
            decided fun _ after =>
              Spans made.engine.arena made.engine.index decided.vars.size ∧
                after.literals.toList.map Literal.toInt = [1, 2, -3, 4] ∧ 0 < after.level := by
    decide +kernel
  have free : (Operation.decision (.ofVar 1 true)).Able (ofVars 4) := ⟨by decide, by decide +kernel⟩
  have able : Operation.Able (.propagation made.engine.arena made.engine.index) decided := spans
  have chronicle : Chronicle 4 after [ofVars 4] :=
    .step (.step .start free isDecided) able isAfter
  obtain ⟨_, restores, _⟩ := restored_of_chronicle chronicle
  obtain ⟨state, closed, isState, cancelled, values, none_⟩ := restores 0 isOpen
  obtain rfl := Option.some.inj isState
  exact ⟨after, _, closed, chronicle, literals, cancelled, values, none_⟩

end Trail

end CnfSimplifier
