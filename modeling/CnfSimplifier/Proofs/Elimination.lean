import CnfSimplifier.Elimination
import CnfSimplifier.Proofs.BlockedClauses
import CnfSimplifier.Proofs.Gate
import CnfSimplifier.Proofs.Quantification
import CnfSimplifier.Proofs.Subsumption
import CnfSimplifier.Proofs.VarHeap

/-!
# Eliminating variables

The clauses with a variable fall into two sides, by its sign, and into redundant
ones. Blocked clauses of a side go one by one. Then the resolvents come, and after
them both sides go with records, and the redundant clauses without. Where the
resolvents hold, one side holds apart from the variable, and the records give the
variable the value that the other side needs.

With a gate only some resolvents come. The defining clauses of one sign hold apart
from the variable exactly if those of the other sign do not, and that makes up for
the resolvents that were left out.
-/
namespace CnfSimplifier

variable {values : Assignment} {literal : Literal}

/-! ## What the records of two sides do -/

/-- The records of both sides bring back what the sides say if one side holds apart
from the variable, and the rest of the formula does not mention it. -/
theorem Picture.holds_unwind_sides {picture : Picture} {positive negative : List (List Literal)}
    {kept : Multiset (List Literal)} (present : 0 < literal.var)
    (split : picture.clauses = ((positive ++ negative : List _) : Multiset _) + kept)
    (withLiteral : ∀ literals ∈ positive, literal ∈ literals)
    (withComplement : ∀ literals ∈ negative, literal.complement ∈ literals)
    (unmentioned : ∀ literals ∈ formula { picture with clauses := kept },
      ∀ other ∈ literals, other.var ≠ literal.var)
    (apart : (∀ literals ∈ positive, HoldsApart literal.var values literals) ∨
      ∀ literals ∈ negative, HoldsApart literal.var values literals)
    (holds : Holds { picture with clauses := kept } values) :
    picture.Holds (unwind (recordsOfSides literal positive negative) values) := by
  obtain ⟨sides, agree⟩ :=
    clauseHolds_unwind_recordsOfSides present withLiteral withComplement apart
  have stays : ∀ literals ∈ formula { picture with clauses := kept },
      ClauseHolds (unwind (recordsOfSides literal positive negative) values) literals := by
    intro literals clause
    have old := HoldsApart.of_unmentioned (holds literals clause) (unmentioned literals clause)
    exact (old.of_agree agree).clauseHolds
  rintro literals (clause | atRoot)
  · rw [split] at clause
    rcases Multiset.mem_add.1 clause with gone | remains
    · exact sides literals gone
    · exact stays literals (.inl remains)
  · exact stays literals (.inr atRoot)

namespace Engine

variable {engine base middle after : Engine} {handle : Handle} {clause : Clause}
  {own others redundant positive negative : List Handle} {pivot : Nat}

/-- If all selected pairs have a clause that holds apart from the variable, one side
does so altogether. -/
theorem allApart_of_selected {gate : Option (Nat × Nat)}
    (exact_ : ∀ count counter, gate = some (count, counter) →
      (engine.AllApart pivot values (positive.take count) ↔
        ¬ engine.AllApart pivot values (negative.take counter)))
    (pairs : ∀ (i j : Nat) (first second : Handle), positive[i]? = some first → negative[j]? = some second →
      Gate.isSelected gate i j = true →
      engine.AllApart pivot values [first] ∨ engine.AllApart pivot values [second]) :
    engine.AllApart pivot values positive ∨ engine.AllApart pivot values negative := by
  -- A clause that does not hold apart forces all its partners to do so.
  have find : ∀ {handles : List Handle}, ¬ engine.AllApart pivot values handles →
      ∃ (i : Nat) (handle : Handle), handles[i]? = some handle ∧
        ¬ engine.AllApart pivot values [handle] := by
    intro handles fails
    unfold AllApart at fails
    push Not at fails
    obtain ⟨handle, member, clause, live, notApart⟩ := fails
    obtain ⟨i, atPlace⟩ := List.mem_iff_getElem?.1 member
    exact ⟨i, handle, atPlace, fun all => notApart (all handle List.mem_cons_self clause live)⟩
  have whole : ∀ {handles : List Handle} {count : Nat},
      engine.AllApart pivot values (handles.take count) →
      (∀ (i : Nat) (handle : Handle), count ≤ i → handles[i]? = some handle →
        engine.AllApart pivot values [handle]) →
      engine.AllApart pivot values handles := by
    intro handles count front back handle member
    obtain ⟨i, atPlace⟩ := List.mem_iff_getElem?.1 member
    by_cases early : i < count
    · refine front handle (List.mem_iff_getElem?.2 ⟨i, ?_⟩)
      rw [List.getElem?_take_of_lt early]
      exact atPlace
    · exact back i handle (Nat.le_of_not_lt early) atPlace handle List.mem_cons_self
  have early_of_take : ∀ {handles : List Handle} {count i : Nat} {handle : Handle},
      (handles.take count)[i]? = some handle → i < count ∧ handles[i]? = some handle := by
    intro handles count i handle inFront
    rw [List.getElem?_take] at inFront
    split at inFront
    next early => exact ⟨early, inFront⟩
    next => cases inFront
  match gate, exact_, pairs with
  | none, _, pairs =>
    by_contra neither
    obtain ⟨firstFails, secondFails⟩ := not_or.1 neither
    obtain ⟨i, first, atFirst, failsFirst⟩ := find firstFails
    obtain ⟨j, second, atSecond, failsSecond⟩ := find secondFails
    exact (pairs i j first second atFirst atSecond rfl).elim failsFirst failsSecond
  | some (count, counter), exact_, pairs =>
    have either := exact_ count counter rfl
    by_cases front : engine.AllApart pivot values (positive.take count)
    · obtain ⟨j, second, inFront, fails⟩ := find (either.1 front)
      obtain ⟨early, atSecond⟩ := early_of_take inFront
      refine .inl (whole front fun i first late atFirst => ?_)
      refine (pairs i j first second atFirst atSecond ?_).resolve_right fails
      simp [Gate.isSelected, early, Nat.not_lt.2 late]
    · have back : engine.AllApart pivot values (negative.take counter) := by
        by_contra fails
        exact front (either.2 fails)
      obtain ⟨i, first, inFront, fails⟩ := find front
      obtain ⟨early, atFirst⟩ := early_of_take inFront
      refine .inr (whole back fun j second late atSecond => ?_)
      refine (pairs i j first second atFirst atSecond ?_).resolve_left fails
      simp [Gate.isSelected, early, Nat.not_lt.2 late]

/-! ## The two sides of a variable -/

/-- The live clauses with a literal are the given ones, apart from redundant ones. -/
structure Side (engine : Engine) (literal : Literal) (handles redundant : List Handle) : Prop where
  all : engine.AllHave literal handles
  irredundant : ∀ handle ∈ handles, ∀ clause, engine.arena.live? handle = some clause →
    clause.isRedundant = false
  distinct : handles.Nodup
  covers : ∀ handle clause, engine.arena.live? handle = some clause →
    literal ∈ clause.literals → handle ∈ handles ∨ handle ∈ redundant

/-- The live clauses with a removable variable by sign. -/
structure Splits (engine : Engine) (literal : Literal) (own others redundant : List Handle) :
    Prop where
  own : engine.Side literal own redundant
  others : engine.Side literal.complement others redundant
  redundant : ∀ handle ∈ redundant, ∃ clause, engine.arena.live? handle = some clause ∧
    clause.isRedundant = true
  removable : engine.Removable literal.var
  present : 0 < literal.var

/-- The clauses of both signs, with the redundant ones of either. -/
theorem Splits.of_sides {more : List Handle} (removable : engine.Removable literal.var)
    (present : 0 < literal.var) (own_ : engine.Side literal own redundant)
    (others_ : engine.Side literal.complement others more)
    (isRedundant : ∀ handle ∈ redundant, ∃ clause, engine.arena.live? handle = some clause ∧
      clause.isRedundant = true)
    (areRedundant : ∀ handle ∈ more, ∃ clause, engine.arena.live? handle = some clause ∧
      clause.isRedundant = true) : engine.Splits literal own others (redundant ++ more) where
  own := { own_ with
    covers := fun handle clause live inside =>
      (own_.covers handle clause live inside).imp_right fun member =>
        List.mem_append_left _ member }
  others := { others_ with
    covers := fun handle clause live inside =>
      (others_.covers handle clause live inside).imp_right fun member =>
        List.mem_append_right _ member }
  redundant := List.forall_mem_append.2 ⟨isRedundant, areRedundant⟩
  removable := removable
  present := present

/-- Either sign may come first. -/
theorem Splits.swap (splits : engine.Splits literal own others redundant) :
    engine.Splits literal.complement others own redundant where
  own := splits.others
  others := by
    rw [Literal.complement_complement splits.present]
    exact splits.own
  redundant := splits.redundant
  removable := by
    rw [Literal.var_complement splits.present]
    exact splits.removable
  present := by
    rw [Literal.var_complement splits.present]
    exact splits.present

/-- The order of a side does not matter. -/
theorem Side.of_perm {handles : List Handle} (side : engine.Side literal own redundant)
    (perm : handles.Perm own) : engine.Side literal handles redundant where
  all handle member := side.all handle (perm.mem_iff.1 member)
  irredundant handle member := side.irredundant handle (perm.mem_iff.1 member)
  distinct := perm.nodup_iff.2 side.distinct
  covers handle clause live member :=
    (side.covers handle clause live member).imp_left fun inside => perm.mem_iff.2 inside

theorem Splits.of_same (splits : engine.Splits literal own others redundant)
    (arena : after.arena = engine.arena) (trail : after.trail = engine.trail) :
    after.Splits literal own others redundant := by
  obtain ⟨⟨all, irredundant, distinct, covers⟩, ⟨allOthers, irredundantOthers, distinctOthers,
    coversOthers⟩, isRedundant, removable, present⟩ := splits
  unfold AllHave at all allOthers
  rw [← arena] at all irredundant covers allOthers irredundantOthers coversOthers isRedundant
  exact ⟨⟨all, irredundant, distinct, covers⟩, ⟨allOthers, irredundantOthers, distinctOthers,
    coversOthers⟩, isRedundant, removable.of_trail trail, present⟩

section Gone

variable {removed left : List Handle}

/-- Some clauses of a side went: what is left of it. -/
theorem Side.of_gone (side : engine.Side literal own redundant)
    (gone : ∀ handle clause, after.arena.live? handle = some clause ↔
      engine.arena.live? handle = some clause ∧ handle ∉ removed)
    (perm : (removed ++ left).Perm own) : after.Side literal left redundant := by
  have distinct := List.nodup_append.1 (perm.nodup_iff.2 side.distinct)
  have isOwn : ∀ handle ∈ left, handle ∈ own := fun handle member =>
    perm.mem_iff.1 (List.mem_append_right _ member)
  constructor
  case all =>
    intro handle member
    obtain ⟨clause, live, inside⟩ := side.all handle (isOwn handle member)
    have stays : handle ∉ removed := fun early => distinct.2.2 handle early handle member rfl
    exact ⟨clause, (gone handle clause).2 ⟨live, stays⟩, inside⟩
  case irredundant =>
    exact fun handle member clause live =>
      side.irredundant handle (isOwn handle member) clause ((gone handle clause).1 live).1
  case distinct => exact distinct.2.1
  case covers =>
    intro handle clause live inside
    obtain ⟨before, stays⟩ := (gone handle clause).1 live
    refine (side.covers handle clause before inside).imp_left fun isOwn => ?_
    exact (List.mem_append.1 (perm.mem_iff.2 isOwn)).resolve_left stays

/-- Some clauses of a side went: the sides of what is left. -/
theorem Splits.of_gone (splits : engine.Splits literal own others redundant)
    (proper : ∀ handle clause, engine.arena.live? handle = some clause →
      literal ∈ clause.literals → literal.complement ∉ clause.literals)
    (gone : ∀ handle clause, after.arena.live? handle = some clause ↔
      engine.arena.live? handle = some clause ∧ handle ∉ removed)
    (perm : (removed ++ left).Perm own) (trail : after.trail = engine.trail) :
    after.Splits literal left others redundant := by
  have isOwn : ∀ handle ∈ removed, handle ∈ own := fun handle member =>
    perm.mem_iff.1 (List.mem_append_left _ member)
  constructor
  case own => exact splits.own.of_gone gone perm
  case others =>
    refine ⟨fun handle member => ?_, fun handle member clause live => ?_, splits.others.distinct,
      fun handle clause live => ?_⟩
    · obtain ⟨clause, live, inside⟩ := splits.others.all handle member
      refine ⟨clause, (gone handle clause).2 ⟨live, fun isGone => ?_⟩, inside⟩
      obtain ⟨again, liveAgain, has⟩ := splits.own.all handle (isOwn handle isGone)
      rw [live, Option.some.injEq] at liveAgain
      exact proper handle again (liveAgain ▸ live) has (liveAgain ▸ inside)
    · exact splits.others.irredundant handle member clause ((gone handle clause).1 live).1
    · exact splits.others.covers handle clause ((gone handle clause).1 live).1
  case redundant =>
    intro handle member
    obtain ⟨clause, live, isRedundant⟩ := splits.redundant handle member
    refine ⟨clause, (gone handle clause).2 ⟨live, fun isGone => ?_⟩, isRedundant⟩
    have own := splits.own.irredundant handle (isOwn handle isGone) clause live
    rw [own] at isRedundant
    cases isRedundant
  case removable => exact splits.removable.of_trail trail
  case present => exact splits.present

end Gone

/-- A clause of one side went. -/
theorem Splits.of_removed [Realm] {left : List Handle}
    (splits : engine.Splits literal own others redundant) (sound : engine.Sound)
    (perm : (handle :: left).Perm own) (dead : after.arena.live? handle = none)
    (keeps : engine.KeepsOthers handle after) (trail : after.trail = engine.trail) :
    after.Splits literal left others redundant := by
  have gone : ∀ other found, after.arena.live? other = some found ↔
      engine.arena.live? other = some found ∧ other ∉ [handle] := by
    intro other found
    rw [List.mem_singleton]
    constructor
    · intro live
      have different : other ≠ handle := by
        rintro rfl
        rw [dead] at live
        cases live
      exact ⟨by rwa [keeps.live?_eq different] at live, different⟩
    · rintro ⟨live, different⟩
      rwa [keeps.live?_eq different]
  exact splits.of_gone (fun _ _ live member => (sound.admits live).proper literal member) gone perm
    trail

end Engine

namespace Eliminator

/-- The clauses with a literal, the irredundant and the redundant ones. -/
theorem clausesWith_looks {engine : Engine} (listed : Listed engine.index engine.arena) :
    (clausesWith literal).Looks engine fun found => engine.Side literal found.1 found.2 ∧
      found.2.Nodup ∧ ∀ handle ∈ found.2, ∃ clause, engine.arena.live? handle = some clause ∧
        clause.isRedundant = true ∧ literal ∈ clause.literals := by
  unfold clausesWith
  refine Engine.looks_occurrences.bind ?_
  rintro _ ⟨handles, list, rfl⟩
  refine .step rfl (.pure ⟨rfl, ?_⟩)
  simp only [List.partition_eq_filter_filter, Function.comp_def]
  refine ⟨⟨fun handle member => ?_, fun handle member clause live => ?_, ?_,
    fun handle clause live member => ?_⟩, ?_, fun handle member => ?_⟩
  · obtain ⟨clause, live, inside⟩ := Arena.holds_iff.1
      (List.mem_filter.1 (List.mem_filter.1 member).1).2
    exact ⟨clause, live, inside⟩
  · obtain ⟨found, _⟩ := Arena.live?_eq_some.1 live
    simpa [found] using (List.mem_filter.1 member).2
  · exact ((listed.nodup literal handles list).filter _).filter _
  · have isListed := listed.mem_of_live live member list
    have holds := Arena.holds_iff.2 ⟨clause, live, member⟩
    obtain ⟨found, _⟩ := Arena.live?_eq_some.1 live
    simp only [List.mem_filter, isListed, holds, found, Option.map_some, Option.getD_some,
      true_and]
    cases clause.isRedundant <;> simp
  · exact ((listed.nodup literal handles list).filter _).filter _
  · obtain ⟨clause, live, inside⟩ := Arena.holds_iff.1
      (List.mem_filter.1 (List.mem_filter.1 member).1).2
    obtain ⟨found, _⟩ := Arena.live?_eq_some.1 live
    exact ⟨clause, live, by simpa [found] using (List.mem_filter.1 member).2, inside⟩

/-! ## The tool at work -/

/-- Work of the subsumer leaves the rest of the tool. -/
theorem onSubsumer_apply {α : Type} (body : Work Subsumer α) (state : Tool Eliminator × Engine) :
    onSubsumer body state = (body (state.1.own.subsumer, state.2)).mapState fun part =>
      ({ state.1 with own := { state.1.own with subsumer := part.1 } }, part.2) := by
  unfold onSubsumer
  dsimp only
  cases body (state.1.own.subsumer, state.2) <;> rfl

/-- Work on the heap leaves the rest of the tool and the engine. -/
theorem onHeap_apply {α : Type} (body : Occurrences → Run VarHeap α)
    (state : Tool Eliminator × Engine) :
    onHeap body state = (body state.2.index state.1.own.heap).mapState fun heap =>
      ({ state.1 with own := { state.1.own with heap := heap } }, state.2) := by
  unfold onHeap
  dsimp only
  cases body state.2.index state.1.own.heap <;> rfl

/-- The subsumer has no graph, and the heap holds variables. -/
structure Ready (tool : Tool Eliminator) : Prop where
  plain : tool.own.subsumer.own.graph = none
  heap : tool.own.heap.Positive

theorem Ready.of_own {tool after : Tool Eliminator} (ready : Ready tool)
    (same : after.own = tool.own) : Ready after :=
  ⟨same ▸ ready.plain, same ▸ ready.heap⟩

/-- The heap and the graph of the subsumer are as they were. -/
structure Held (start tool : Tool Eliminator) : Prop where
  graph : tool.own.subsumer.own.graph = start.own.subsumer.own.graph
  heap : tool.own.heap = start.own.heap

theorem Held.refl {tool : Tool Eliminator} : Held tool tool := ⟨rfl, rfl⟩

theorem Held.of_own {start tool after : Tool Eliminator} (held : Held start tool)
    (same : after.own = tool.own) : Held start after :=
  ⟨same ▸ held.graph, same ▸ held.heap⟩

theorem Held.ready {start tool : Tool Eliminator} (held : Held start tool) (ready : Ready start) :
    Ready tool :=
  ⟨held.graph.trans ready.plain, held.heap ▸ ready.heap⟩

variable [Realm] {scope : Scope} {α : Type} {state : Tool Eliminator × Engine}
  {start : Tool Eliminator} {others redundant partners : List Handle} {pivot : Nat}
  {handle : Handle} {touched : List Nat} {gate : Option (Nat × Nat)} {sides : GateSides}

/-- Work on the engine leaves the tool ready. -/
theorem works_lift {body : Run Engine α} {post : α → Engine → Prop} (ready : Ready state.1)
    (works : Works scope body state.2 post) :
    Works scope (liftM body : Work Eliminator α) state fun value after =>
      Ready after.1 ∧ post value after.2 :=
  works.lift.imp fun _ _ ⟨tool, holds⟩ => ⟨tool ▸ ready, holds⟩

theorem works_spend {steps : Nat} (ready : Ready state.1) :
    Works scope (Work.spend steps) state fun _ after => Ready after.1 ∧ after.2 = state.2 :=
  Work.works_spend.imp fun _ _ ⟨same, own⟩ => ⟨ready.of_own own, same⟩

/-- The subsumer works on the engine as it does on its own. -/
theorem works_onSubsumer {body : Work Subsumer α} {post : α → Tool Subsumer × Engine → Prop}
    (works : Works scope body (state.1.own.subsumer, state.2) post) :
    Works scope (onSubsumer body) state fun value after =>
      after.1.own.heap = state.1.own.heap ∧ post value (after.1.own.subsumer, after.2) := by
  exact .within (onSubsumer_apply body state) rfl (fun _ => rfl) works fun _ _ holds => ⟨rfl, holds⟩

/-- Work on the heap leaves the engine and the subsumer. -/
theorem works_onHeap {body : Occurrences → Run VarHeap α} {post : α → VarHeap → Prop}
    (ends : (body state.2.index).Ends state.1.own.heap post fun _ _ => False) :
    Works scope (onHeap body) state fun value after =>
      after.2 = state.2 ∧ after.1.own.subsumer = state.1.own.subsumer ∧
        post value after.1.own.heap := by
  intro sound
  refine .within (onHeap_apply body state) (ends.imp (fun value after holds => ?_) fun _ _ => False.elim)
  exact ⟨.refl sound, rfl, rfl, holds⟩

/-- Work on the engine for a variable leaves the heap. -/
theorem worksOn_lift {body : Run Engine α} {post : α → Engine → Prop} (held : Held start state.1)
    (works : WorksOn pivot body state.2 post) :
    WorksOn pivot (liftM body : Work Eliminator α) state fun value after =>
      Held start after.1 ∧ post value after.2 :=
  works.lift.imp fun _ _ ⟨tool, holds⟩ => ⟨tool ▸ held, holds⟩

/-- Spending steps leaves the engine. -/
theorem worksOn_spend {steps : Nat} (held : Held start state.1) :
    WorksOn pivot (Work.spend steps) state fun _ after => Held start after.1 ∧ after.2 = state.2 := by
  refine (WorksOn.of_post Work.works_spend (.of_done rfl trivial) ?_).imp ?_
  · rintro _ after ⟨same, _⟩
    exact .of_same (congrArg Engine.arena same) (congrArg Engine.trail same)
      (congrArg Engine.records same)
  · exact fun _ _ ⟨same, own⟩ => ⟨held.of_own own, same⟩

/-- A clause that is to wait for the subsumer gets a mark. -/
theorem worksOn_enqueue (held : Held start state.1) :
    WorksOn pivot (onSubsumer (Subsumer.enqueue handle)) state fun _ after =>
      Held start after.1 ∧ state.2.Remarks after.2 := by
  have queued : WorksOn pivot (Subsumer.enqueue handle) (state.1.own.subsumer, state.2) fun _ after =>
      after.1.own.graph = state.1.own.subsumer.own.graph ∧ state.2.Remarks after.2 := by
    unfold Subsumer.enqueue
    refine .look Engine.looks_look.lift fun found _ => ?_
    split
    · exact .pure ⟨rfl, .refl⟩
    split
    · exact .pure ⟨rfl, .refl⟩
    refine .bind (WorksOn.lift (Engine.worksOn_markClause (fun _ => rfl) fun _ => rfl)) ?_
    rintro _ after _ ⟨tool, remarks⟩
    exact fun sound => .of_done rfl ⟨⟨.refl sound, .refl⟩, by rw [tool], remarks⟩
  exact .within (onSubsumer_apply _ state) rfl (fun _ => rfl) queued fun _ _ ⟨graph, remarks⟩ =>
    ⟨⟨graph.trans held.graph, held.heap⟩, remarks⟩

/-! ## Blocked clauses of a side -/

/-- Blocked clauses of one side may go. -/
theorem worksOn_removeBlocked (remaining : Nat) {side : Array Handle} (held : Held start state.1)
    (splits : state.2.Splits literal side.toList others redundant)
    (lists : state.2.ListsPartners literal partners) (names : ∀ name ∈ touched, 0 < name) :
    WorksOn literal.var (removeBlocked literal partners remaining side touched) state
      fun result after => Held start after.1 ∧
        after.2.Splits literal result.2.1.toList others redundant ∧
        ∀ name ∈ result.2.2, 0 < name := by
  induction remaining generalizing state side touched with
  | zero => exact .pure ⟨held, splits, names⟩
  | succ remaining ih =>
    refine .of_sound fun (sound : state.2.Sound) => ?_
    unfold removeBlocked
    refine .look Run.Looks.access fun handle atPlace => ?_
    have inSide : handle ∈ side.toList :=
      Array.mem_toList_iff.2 (Array.mem_of_getElem? atPlace)
    obtain ⟨clause, live, member⟩ := splits.own.all handle inSide
    obtain ⟨found, alive⟩ := Arena.live?_eq_some.1 live
    refine .look Engine.looks_clause.lift fun own lookedUp => ?_
    rw [found, Option.some.injEq] at lookedUp
    subst lookedUp
    refine .bind (worksOn_spend held) fun goOn ⟨tool, engine⟩ _ ⟨held, same⟩ => ?_
    dsimp only at same held
    subst same
    split
    swap
    · exact .pure ⟨held, splits, names⟩
    refine .step rfl rfl (.look Run.Looks.access fun isBlocked blocked => ?_)
    split
    next yes =>
      rw [yes] at blocked
      refine .bind (worksOn_lift held (Engine.worksOn_removeBlocked member splits.removable lists live
        blocked)) fun _ removed _ ⟨held, trail, dead, keeps⟩ => ?_
      refine .bind (worksOn_lift held (Engine.worksOn_count _)) fun _ counted _ ⟨held, isCounted⟩ => ?_
      have remaining := splits.of_removed sound (Bag.swapPop_perm atPlace) dead keeps
        trail
      refine ih held ?_ ?_ (List.forall_mem_append.2 ⟨names, fun name inClause => ?_⟩)
      · rw [isCounted]
        exact remaining.of_same rfl rfl
      · rw [isCounted]
        exact lists.of_removed dead keeps
      · obtain ⟨other, inside, rfl⟩ := List.mem_map.1 inClause
        exact ((sound.admits live).present other inside).1
    next => exact ih held splits lists names

/-- The blocked clauses of one side may go. -/
theorem worksOn_removeBlockedSide {side : Array Handle} (held : Held start state.1)
    (splits : state.2.Splits literal side.toList others redundant)
    (names : ∀ name ∈ touched, 0 < name) :
    WorksOn literal.var (removeBlockedSide literal side touched) state
      fun result after => Held start after.1 ∧
        after.2.Splits literal result.2.1.toList others redundant ∧
        ∀ name ∈ result.2.2, 0 < name := by
  refine .of_sound fun (sound : state.2.Sound) => ?_
  unfold removeBlockedSide
  refine .look Engine.looks_occurrences.lift ?_
  rintro _ ⟨handles, list, rfl⟩
  refine .step rfl rfl ?_
  exact worksOn_removeBlocked _ held splits (Engine.listsPartners_of_list sound.listed list) names

/-! ## Forecasts -/

/-- Forecasting resolvents of one clause leaves the engine. -/
theorem worksOn_forecastAgainst {bound : UInt64} {i : Nat} {literals : List Literal}
    (negative : List (Handle × Nat)) {sofar : Forecast} (held : Held start state.1) :
    WorksOn pivot (forecastAgainst bound gate pivot i literals negative sofar) state
      fun _ after => Held start after.1 ∧ after.2 = state.2 := by
  induction negative generalizing state sofar with
  | nil => exact .pure ⟨held, rfl⟩
  | cons entry rest ih =>
    obtain ⟨handle, j⟩ := entry
    unfold forecastAgainst
    split
    swap
    · exact ih held
    refine .look Engine.looks_clause.lift fun other _ => ?_
    refine .bind (worksOn_spend held) fun goOn ⟨tool, engine⟩ _ ⟨held, same⟩ => ?_
    dsimp only at same held
    subst same
    split
    swap
    · exact .pure ⟨held, rfl⟩
    refine .step rfl rfl ?_
    split
    · exact ih held
    · exact .pure ⟨held, rfl⟩
    · dsimp only
      split
      · exact .pure ⟨held, rfl⟩
      · exact ih held

/-- Forecasting resolvents leaves the engine. -/
theorem worksOn_forecastAll {bound : UInt64} {negative : List (Handle × Nat)}
    (positive : List (Handle × Nat)) {sofar : Forecast} (held : Held start state.1) :
    WorksOn pivot (forecastAll bound gate pivot negative positive sofar) state
      fun _ after => Held start after.1 ∧ after.2 = state.2 := by
  induction positive generalizing state sofar with
  | nil => exact .pure ⟨held, rfl⟩
  | cons entry rest ih =>
    obtain ⟨handle, i⟩ := entry
    unfold forecastAll
    refine .look Engine.looks_clause.lift fun clause _ => ?_
    refine .bind (worksOn_forecastAgainst negative held) fun found ⟨tool, engine⟩ _ ⟨held, same⟩ => ?_
    dsimp only at same held
    subst same
    split
    · exact .pure ⟨held, rfl⟩
    · exact ih held

/-! ## Adding resolvents -/

/-- The clauses stay what they are, and those that come do not mention the
variable. -/
structure Extends (base : Engine) (pivot : Nat) (after : Engine) : Prop extends
    Engine.Adds base (fun literal => literal.var ≠ pivot) after where
  redundant : ∀ handle clause copy, base.arena.live? handle = some clause →
    after.arena.live? handle = some copy → copy.isRedundant = clause.isRedundant

variable {base middle engine after : Engine}

omit [Realm] in
theorem Extends.refl : Extends engine pivot engine where
  toAdds := .refl
  redundant _ _ _ live again := by
    rw [live, Option.some.injEq] at again
    rw [again]

omit [Realm] in
theorem Extends.trans (first : Extends base pivot middle) (second : Extends middle pivot after) :
    Extends base pivot after where
  toAdds := first.toAdds.trans second.toAdds
  redundant handle clause copy live again := by
    obtain ⟨between, liveBetween, _⟩ := first.older handle clause live
    rw [second.redundant handle between copy liveBetween again,
      first.redundant handle clause between live liveBetween]

omit [Realm] in
/-- More clauses without the pivot extend the formula. -/
theorem Extends.of_grows {allowed : Literal → Prop} (grows : engine.Grows allowed after)
    (apart : ∀ literal, allowed literal → literal.var ≠ pivot) : Extends engine pivot after where
  toAdds := .of_grows (grows.mono apart)
  redundant handle clause copy live again := by
    obtain ⟨found, _⟩ := Arena.live?_eq_some.1 live
    have same := (Arena.live?_eq_some.1 again).1
    rw [grows.older handle clause found, Option.some.injEq] at same
    rw [same]

omit [Realm] in
/-- A change of marks adds no clause. -/
theorem Extends.of_remarks (remarks : engine.Remarks after) : Extends engine pivot after where
  toAdds := .of_sameClauses remarks.clauses remarks.trail
  redundant handle clause copy live again :=
    remarks.redundant handle clause copy (Arena.live?_eq_some.1 live).1
      (Arena.live?_eq_some.1 again).1

omit [Realm] in
/-- The sides of the variable stay what they are. -/
theorem Extends.side {own : List Handle} (extends_ : Extends engine literal.var after)
    (side : engine.Side literal own redundant) : after.Side literal own redundant := by
  refine ⟨fun handle member => ?_, fun handle member copy live => ?_, side.distinct,
    fun handle copy live member => ?_⟩
  · obtain ⟨clause, live, inside⟩ := side.all handle member
    obtain ⟨copy, liveCopy, same⟩ := extends_.older handle clause live
    exact ⟨copy, liveCopy, same ▸ inside⟩
  · obtain ⟨clause, liveBefore, _⟩ := side.all handle member
    rw [extends_.redundant handle clause copy liveBefore live]
    exact side.irredundant handle member clause liveBefore
  · rcases extends_.newer handle copy live with ⟨clause, liveBefore, same⟩ | new
    · exact side.covers handle clause liveBefore (same ▸ member)
    · exact absurd rfl (new literal member)

/-- An irredundant live clause has a literal. -/
def HasOwn (base : Engine) (literal : Literal) (handle : Handle) : Prop :=
  ∃ clause, base.arena.live? handle = some clause ∧ literal ∈ clause.literals ∧
    clause.isRedundant = false

omit [Realm] in
/-- The clauses of a side are irredundant ones with its literal. -/
theorem hasOwn_of_side {own : List Handle} (side : base.Side literal own redundant) :
    ∀ entry ∈ own.zipIdx, HasOwn base literal entry.1 := by
  intro entry member
  have inside := List.mem_of_getElem? (List.mem_zipIdx_iff_getElem?.1 member)
  obtain ⟨clause, live, has⟩ := side.all entry.1 inside
  exact ⟨clause, live, has, side.irredundant entry.1 inside clause live⟩

omit [Realm] in
/-- An irredundant clause of the old engine is in the irredundant part still. -/
theorem Extends.mem_core {clause : Clause} (extends_ : Extends base pivot engine)
    (live : base.arena.live? handle = some clause) (irredundant : clause.isRedundant = false) :
    clause.literals ∈ engine.core := by
  obtain ⟨copy, liveCopy, same⟩ := extends_.older handle clause live
  refine .inl ⟨handle, copy, liveCopy, ?_, same⟩
  rw [extends_.redundant handle clause copy live liveCopy]
  exact irredundant

/-- A resolvent of two irredundant clauses follows from the irredundant part, and it is over
variables of the formula but for the pivot. -/
theorem resolvent_follows {first second resolvent : List Literal}
    (admitsFirst : engine.picture.Admits first) (admitsSecond : engine.picture.Admits second)
    (inFirst : first ∈ engine.core) (inSecond : second ∈ engine.core) (member : literal ∈ first)
    (opposite : literal.complement ∈ second)
    (found : Resolution.resolvent? literal.var first second = some resolvent) :
    (∀ other ∈ resolvent, engine.picture.Present other.var ∧ other.var ≠ literal.var) ∧
      Rup engine.picture.formula resolvent ∧
      ∀ values, engine.CoreHolds values → ClauseHolds values resolvent := by
  have positive := (admitsFirst.present literal member).1
  have ownFirst := (Tidy.of_admits admitsFirst).own member
  have ownSecond := (Tidy.of_admits admitsSecond).own_complement positive opposite
  refine ⟨fun other inside => ?_, ?_, fun values holds => ?_⟩
  · obtain ⟨fromFirst | fromSecond, apart⟩ := (Resolution.mem_resolvent? found).1 inside
    · exact ⟨admitsFirst.present other fromFirst, apart⟩
    · exact ⟨admitsSecond.present other fromSecond, apart⟩
  · exact Resolution.rup_resolvent (Engine.core_subset_formula inFirst)
      (Engine.core_subset_formula inSecond) member positive ownFirst ownSecond found
  · exact Resolution.clauseHolds_resolvent? ownFirst ownSecond positive found (holds _ inFirst)
      (holds _ inSecond)

/-- A clause that follows comes, and it may join the queue. -/
theorem worksOn_addResolvent {resolvent : List Literal} {next : Work Eliminator (List Nat)}
    {post : List Nat → Tool Eliminator × Engine → Prop} (held : Held start state.1)
    (present : ∀ other ∈ resolvent, state.2.picture.Present other.var ∧ other.var ≠ pivot)
    (follows : Rup state.2.picture.formula resolvent)
    (implied : ∀ values, state.2.CoreHolds values → ClauseHolds values resolvent)
    (rest : ∀ after : Tool Eliminator × Engine, Held start after.1 →
      Extends state.2 pivot after.2 → state.2.core ⊆ after.2.core → after.2.CoreCovers resolvent →
      WorksOn pivot next after post) :
    WorksOn pivot (do
      Engine.count fun tally => { tally with resolvents := tally.resolvents + 1 }
      match ← Engine.addClause resolvent false with
      | some new => onSubsumer (Subsumer.enqueue new)
      | none => pure ()
      next : Work Eliminator (List Nat)) state post := by
  refine .bind (worksOn_lift held (Engine.worksOn_count _)) ?_
  rintro _ ⟨tool, engine⟩ _ ⟨heldCounted, isCounted⟩
  dsimp only at isCounted heldCounted
  subst isCounted
  have added : WorksOn pivot (Engine.addClause resolvent false) { state.2 with
      tally := { state.2.tally with resolvents := state.2.tally.resolvents + 1 } } _ :=
    Engine.worksOn_addClause (fun other inside => (present other inside).1) follows implied
  refine .bind (worksOn_lift heldCounted added) fun new stored _
    ⟨heldStored, grows, olderStored, covered⟩ => ?_
  have extendsStored : Extends state.2 pivot stored.2 :=
    .of_grows ⟨grows.older, grows.newer, grows.root, grows.flags, grows.records⟩
      fun other inside => (present other inside).2
  cases new with
  | none => exact rest stored heldStored extendsStored olderStored covered
  | some new =>
    refine .bind (worksOn_enqueue heldStored) fun _ queued _ ⟨heldQueued, remarks⟩ => ?_
    have olderQueued := remarks.core.ge
    exact rest queued heldQueued (extendsStored.trans (.of_remarks remarks))
      (olderStored.trans olderQueued) (covered.mono olderQueued)

/-- Resolvents of a clause with others come. -/
theorem worksOn_resolveAgainst {clause : Clause} {i : Nat} (negative : List (Handle × Nat))
    (held : Held start state.1) (extends_ : Extends base literal.var state.2)
    (live : base.arena.live? handle = some clause) (member : literal ∈ clause.literals)
    (irredundant : clause.isRedundant = false)
    (partners : ∀ entry ∈ negative, HasOwn base literal.complement entry.1)
    (names : ∀ name ∈ touched, 0 < name) :
    WorksOn literal.var (resolveAgainst gate literal.var handle i negative touched) state
      fun touched after => (Held start after.1 ∧ ∀ name ∈ touched, 0 < name) ∧
        (Extends state.2 literal.var after.2 ∧ state.2.core ⊆ after.2.core) ∧
        ∀ entry ∈ negative, Gate.isSelected gate i entry.2 = true → ∀ partner,
          base.arena.live? entry.1 = some partner → ∀ resolvent,
          Resolution.resolvent? literal.var clause.literals partner.literals = some resolvent →
          after.2.CoreCovers resolvent := by
  induction negative generalizing state touched with
  | nil => exact .pure ⟨⟨held, names⟩, ⟨.refl, fun _ => id⟩, by simp⟩
  | cons entry rest ih =>
    obtain ⟨other, j⟩ := entry
    obtain ⟨⟨partner, livePartner, inPartner, irredundantPartner⟩, partnersRest⟩ :=
      List.forall_mem_cons.1 partners
    refine .of_sound fun (sound : state.2.Sound) => ?_
    -- What is left is the same in all cases but for the first of the others.
    have continue_ : ∀ (next : Tool Eliminator × Engine) (seen : List Nat), Held start next.1 →
        (∀ name ∈ seen, 0 < name) → Extends state.2 literal.var next.2 →
        state.2.core ⊆ next.2.core →
        (Gate.isSelected gate i j = true → ∀ resolvent,
          Resolution.resolvent? literal.var clause.literals partner.literals = some resolvent →
          next.2.CoreCovers resolvent) →
        WorksOn literal.var (resolveAgainst gate literal.var handle i rest seen) next
          fun touched after => (Held start after.1 ∧ ∀ name ∈ touched, 0 < name) ∧
            (Extends state.2 literal.var after.2 ∧ state.2.core ⊆ after.2.core) ∧
            ∀ entry ∈ (other, j) :: rest, Gate.isSelected gate i entry.2 = true → ∀ partner,
              base.arena.live? entry.1 = some partner → ∀ resolvent,
              Resolution.resolvent? literal.var clause.literals partner.literals =
                some resolvent → after.2.CoreCovers resolvent := by
      intro next seen heldNext namesNext extendsNext olderNext covered
      refine (ih heldNext (extends_.trans extendsNext) partnersRest namesNext).imp ?_
      rintro _ after ⟨heldAfter, ⟨extendsAfter, olderAfter⟩, coveredRest⟩
      refine ⟨heldAfter, ⟨extendsNext.trans extendsAfter, olderNext.trans olderAfter⟩,
        List.forall_mem_cons.2 ⟨?_, coveredRest⟩⟩
      intro selected again liveAgain resolvent found
      rw [livePartner, Option.some.injEq] at liveAgain
      subst liveAgain
      exact (covered selected resolvent found).mono olderAfter
    unfold resolveAgainst
    split
    swap
    next unselected =>
      exact continue_ state touched held names .refl (fun _ => id)
        fun selected => absurd selected unselected
    have inCore := extends_.mem_core live irredundant
    have partnerInCore := extends_.mem_core livePartner irredundantPartner
    obtain ⟨copy, liveCopy, same⟩ := extends_.older handle clause live
    obtain ⟨twin, liveTwin, sameTwin⟩ := extends_.older other partner livePartner
    refine .look Engine.looks_clause.lift fun own lookedUp => ?_
    rw [(Arena.live?_eq_some.1 liveCopy).1, Option.some.injEq] at lookedUp
    subst lookedUp
    refine .look Engine.looks_clause.lift fun again lookedUp => ?_
    rw [(Arena.live?_eq_some.1 liveTwin).1, Option.some.injEq] at lookedUp
    subst lookedUp
    have admitsFirst := sound.admits liveCopy
    have admitsSecond := sound.admits liveTwin
    rw [same] at admitsFirst ⊢
    rw [sameTwin] at admitsSecond ⊢
    split
    next tautology =>
      refine continue_ state touched held names .refl (fun _ => id) fun _ resolvent found => ?_
      rw [tautology] at found
      cases found
    next resolvent found =>
    obtain ⟨present, follows, implied⟩ := resolvent_follows admitsFirst admitsSecond inCore
      partnerInCore member inPartner found
    have namesNext : ∀ name ∈ touched ++ resolvent.map Literal.var, 0 < name := by
      refine List.forall_mem_append.2 ⟨names, fun name inside => ?_⟩
      obtain ⟨other, isOther, rfl⟩ := List.mem_map.1 inside
      exact (present other isOther).1.1
    refine worksOn_addResolvent held present follows implied
      fun after heldAfter extendsAfter older covered =>
        continue_ after _ heldAfter namesNext extendsAfter older fun _ again isFound => ?_
    rw [found, Option.some.injEq] at isFound
    exact isFound ▸ covered

/-- All selected resolvents of two lists of clauses are there, or parts of them. -/
def Resolved (base : Engine) (pivot : Nat) (gate : Option (Nat × Nat))
    (positive negative : List (Handle × Nat)) (after : Engine) : Prop :=
  ∀ first ∈ positive, ∀ second ∈ negative, Gate.isSelected gate first.2 second.2 = true →
    ∀ clause partner, base.arena.live? first.1 = some clause →
      base.arena.live? second.1 = some partner → ∀ resolvent,
      Resolution.resolvent? pivot clause.literals partner.literals = some resolvent →
      after.CoreCovers resolvent

/-- Adding resolvents keeps what is said of other variables. -/
theorem worksOn_resolveAll {negative : List (Handle × Nat)} (positive : List (Handle × Nat))
    (held : Held start state.1) (extends_ : Extends base literal.var state.2)
    (own : ∀ entry ∈ positive, HasOwn base literal entry.1)
    (partners : ∀ entry ∈ negative, HasOwn base literal.complement entry.1)
    (names : ∀ name ∈ touched, 0 < name) :
    WorksOn literal.var (resolveAll gate literal.var negative positive touched) state
      fun touched after => (Held start after.1 ∧ ∀ name ∈ touched, 0 < name) ∧
        (Extends state.2 literal.var after.2 ∧ state.2.core ⊆ after.2.core) ∧
        Resolved base literal.var gate positive negative after.2 := by
  induction positive generalizing state touched with
  | nil => exact .pure ⟨⟨held, names⟩, ⟨.refl, fun _ => id⟩, by simp [Resolved]⟩
  | cons entry rest ih =>
    obtain ⟨handle, i⟩ := entry
    obtain ⟨⟨clause, live, member, irredundant⟩, ownRest⟩ := List.forall_mem_cons.1 own
    unfold resolveAll
    refine .bind (worksOn_resolveAgainst negative held extends_ live member irredundant partners
      names) fun seen next _ ⟨⟨heldNext, namesNext⟩, ⟨extendsNext, olderNext⟩, covered⟩ => ?_
    refine (ih heldNext (extends_.trans extendsNext) ownRest namesNext).imp ?_
    rintro _ after ⟨heldAfter, ⟨extendsAfter, olderAfter⟩, resolved⟩
    refine ⟨heldAfter, ⟨extendsNext.trans extendsAfter, olderNext.trans olderAfter⟩,
      List.forall_mem_cons.2 ⟨?_, resolved⟩⟩
    intro second inNegative selected own partner liveOwn livePartner resolvent found
    rw [live, Option.some.injEq] at liveOwn
    subst liveOwn
    exact (covered second inNegative selected partner livePartner resolvent found).mono olderAfter

/-! ## Removing the sides -/

omit [Realm] in
/-- The clauses of a side go with records. -/
theorem removeSide_ends (handles : List Handle) (inStep : engine.InStep)
    {failed : Error → Engine → Prop} :
    (removeSide literal handles touched).Ends engine (fun names after =>
      ∃ clauses : List Clause, engine.Takes (clauses.map Clause.literals)
        ((clauses.filter fun clause => !clause.isRedundant).map fun clause =>
          Record.ofClause literal clause.literals) [] after ∧
        (∀ handle ∈ handles, after.arena.live? handle = none) ∧
        (∀ clause ∈ clauses, ∃ handle ∈ handles, engine.arena.live? handle = some clause) ∧
        (∀ handle ∈ handles, ∀ clause, engine.arena.live? handle = some clause →
          clause ∈ clauses) ∧
        engine.Spares handles after ∧
        ∀ name ∈ names, name ∈ touched ∨ ∃ clause ∈ clauses, ∃ other ∈ clause.literals,
          other.var = name) failed := by
  induction handles generalizing engine touched with
  | nil =>
    exact .pure ⟨[], .refl inStep, by simp, by simp, by simp, fun _ _ live _ => live,
      fun name member => .inl member⟩
  | cons handle rest ih =>
    unfold removeSide
    refine Engine.looks_clause.bind fun clause found => ?_
    split
    next dead =>
      have isDead : engine.arena.live? handle = none := by
        unfold Arena.live?
        rw [found]
        simp [dead]
      refine (ih inStep).imp ?_ fun _ _ failed => failed
      rintro names after ⟨clauses, takes, gone, own, all, spares, fromThere⟩
      refine ⟨clauses, takes, List.forall_mem_cons.2 ⟨takes.dead isDead, gone⟩, ?_,
        List.forall_mem_cons.2 ⟨fun clause live => ?_, all⟩, ?_, fromThere⟩
      · intro clause member
        obtain ⟨other, inRest, live⟩ := own clause member
        exact ⟨other, List.mem_cons_of_mem _ inRest, live⟩
      · rw [isDead] at live
        cases live
      · exact fun other clause live absent =>
          spares other clause live fun later => absent (List.mem_cons_of_mem _ later)
    next alive =>
      have live := Arena.live?_of_alive found alive
      refine (Engine.removeWithRecord_ends inStep live).bind ?_
      rintro _ middle ⟨takes, dead, others, _⟩
      refine (ih takes.inStep).imp ?_ fun _ _ failed => failed
      rintro names after ⟨clauses, takesRest, gone, own, all, spares, fromThere⟩
      refine ⟨clause :: clauses, ?_, List.forall_mem_cons.2 ⟨takesRest.dead dead, gone⟩, ?_, ?_,
        others.spares.cons spares, ?_⟩
      · have both := takes.trans takesRest
        cases isRedundant : clause.isRedundant <;> simpa [isRedundant] using both
      · refine List.forall_mem_cons.2 ⟨⟨handle, List.mem_cons_self, live⟩, fun other member => ?_⟩
        obtain ⟨place, inRest, liveOther⟩ := own other member
        exact ⟨place, List.mem_cons_of_mem _ inRest, takes.older place other liveOther⟩
      · intro place member other liveOther
        by_cases same : place = handle
        · rw [same, live, Option.some.injEq] at liveOther
          exact liveOther ▸ List.mem_cons_self
        · have inRest := (List.mem_cons.1 member).resolve_left same
          exact List.mem_cons_of_mem _ (all place inRest other (by rwa [others.live?_eq same]))
      · intro name member
        rcases fromThere name member with seen | ⟨other, isOther, rest⟩
        · rcases List.mem_append.1 seen with earlier | new
          · exact .inl earlier
          · obtain ⟨other, inside, rfl⟩ := List.mem_map.1 new
            exact .inr ⟨clause, List.mem_cons_self, other, inside, rfl⟩
        · exact .inr ⟨other, List.mem_cons_of_mem _ isOther, rest⟩

/-- Where all resolvents are there or parts of them, one side holds apart from the
variable. -/
theorem allApart_of_resolved {positive negative : List Handle} (sound : base.Sound)
    (splits : base.Splits literal positive negative redundant)
    (exact_ : ∀ count counter, gate = some (count, counter) →
      (base.AllApart literal.var values (positive.take count) ↔
        ¬ base.AllApart literal.var values (negative.take counter)))
    (resolved : Resolved base literal.var gate positive.zipIdx negative.zipIdx engine)
    (holds : ∀ part ∈ engine.core, (∀ other ∈ part, other.var ≠ literal.var) →
      ClauseHolds values part) :
    base.AllApart literal.var values positive ∨ base.AllApart literal.var values negative := by
  refine Engine.allApart_of_selected exact_ fun i j first second atFirst atSecond selected => ?_
  obtain ⟨clause, live, member⟩ := splits.own.all first (List.mem_of_getElem? atFirst)
  obtain ⟨partner, livePartner, inPartner⟩ :=
    splits.others.all second (List.mem_of_getElem? atSecond)
  have overClause : OverVars clause.literals := fun other inside =>
    ((sound.admits live).present other inside).1
  have overPartner : OverVars partner.literals := fun other inside =>
    ((sound.admits livePartner).present other inside).1
  have either : HoldsApart literal.var values clause.literals ∨
      HoldsApart literal.var values partner.literals := by
    cases found : Resolution.resolvent? literal.var clause.literals partner.literals with
    | none => exact Resolution.holdsApart_of_none overClause found
    | some resolvent =>
      refine Resolution.holdsApart_of_some found ?_
      have covered := resolved (first, i) (List.mem_zipIdx_iff_getElem?.2 atFirst) (second, j)
        (List.mem_zipIdx_iff_getElem?.2 atSecond) selected clause partner live livePartner resolvent
        found
      refine covered.clauseHolds (fun other inside => ?_) fun part inCore small =>
        holds part inCore fun other inside =>
          ((Resolution.mem_resolvent? found).1 (small inside)).2
      rcases ((Resolution.mem_resolvent? found).1 inside).1 with inClause | inOther
      · exact overClause other inClause
      · exact overPartner other inOther
  refine either.imp (fun apart => ?_) fun apart => ?_
  · rintro handle single own liveOwn
    rw [List.mem_singleton.1 single, live, Option.some.injEq] at liveOwn
    exact liveOwn ▸ apart
  · rintro handle single own liveOwn
    rw [List.mem_singleton.1 single, livePartner, Option.some.injEq] at liveOwn
    exact liveOwn ▸ apart

omit [Realm] in
/-- What holds apart before resolvents come does so after. -/
theorem Extends.holdsApart {handles : List Handle} {clauses : List Clause}
    (extends_ : Extends base pivot engine) (all : base.AllHave literal handles)
    (own : ∀ clause ∈ clauses, ∃ handle ∈ handles, engine.arena.live? handle = some clause)
    (apart : base.AllApart pivot values handles) :
    ∀ literals ∈ clauses.map Clause.literals, HoldsApart pivot values literals := by
  intro literals inMap
  obtain ⟨clause, member, rfl⟩ := List.mem_map.1 inMap
  obtain ⟨handle, inHandles, live⟩ := own clause member
  obtain ⟨old, liveOld, _⟩ := all handle inHandles
  obtain ⟨copy, liveCopy, same⟩ := extends_.older handle old liveOld
  rw [live, Option.some.injEq] at liveCopy
  rw [liveCopy, same]
  exact apart handle inHandles old liveOld

omit [Realm] in
/-- A variable is mentioned nowhere once all its clauses are gone. -/
theorem unmentioned_of_dead {positive negative : List Handle}
    {gone : List (List Literal)} {records : List Record} {names : List Nat}
    (takes : engine.Takes gone records names after) (present : 0 < literal.var)
    (own : engine.Side literal positive redundant)
    (others : engine.Side literal.complement negative redundant)
    (isOpen : ∀ other ∈ engine.trail.facts, other.var ≠ literal.var)
    (dead : ∀ handle, handle ∈ positive ∨ handle ∈ negative ∨ handle ∈ redundant →
      after.arena.live? handle = none) :
    ∀ literals ∈ after.picture.formula, ∀ other ∈ literals, other.var ≠ literal.var := by
  rintro literals (clause | ⟨unit, atRoot, rfl⟩) other member sameVar
  · obtain ⟨slot, copy, atSlot, alive, rfl⟩ := Arena.mem_contents.1 clause
    have live := Arena.live?_handleAt takes.inStep.space.le atSlot alive
    have liveBefore := takes.older _ copy live
    have isGone : after.arena.live? (after.arena.handleAt slot) = none := by
      rcases Literal.eq_or_eq_complement present sameVar with rfl | rfl
      · exact dead _ ((own.covers _ copy liveBefore member).imp_right .inr)
      · exact dead _ (.inr (others.covers _ copy liveBefore member))
    rw [isGone] at live
    cases live
  · rw [List.mem_singleton.1 member] at sameVar
    refine isOpen unit ?_ sameVar
    rw [← takes.root]
    exact atRoot

/-- Both sides of a variable went, with records, after their resolvents had come; the
redundant clauses went without. -/
structure Replaced (literal : Literal) (positive negative redundant : List Handle)
    (gate : Option (Nat × Nat)) (first second : List Clause) (gone : List (List Literal))
    (base engine after : Engine) : Prop where
  splits : base.Splits literal positive negative redundant
  gateExact : ∀ count counter, gate = some (count, counter) → ∀ values,
    (base.AllApart literal.var values (positive.take count) ↔
      ¬ base.AllApart literal.var values (negative.take counter))
  extended : Extends base literal.var engine
  resolved : Resolved base literal.var gate positive.zipIdx negative.zipIdx engine
  ownFirst : ∀ clause ∈ first, ∃ handle ∈ positive, engine.arena.live? handle = some clause
  ownSecond : ∀ clause ∈ second, ∃ handle ∈ negative, engine.arena.live? handle = some clause
  ownGone : ∀ literals ∈ gone, ∃ handle ∈ redundant, ∃ clause,
    engine.arena.live? handle = some clause ∧ clause.literals = literals
  allFirst : ∀ handle ∈ positive, ∀ clause, engine.arena.live? handle = some clause →
    clause ∈ first
  allSecond : ∀ handle ∈ negative, ∀ clause, engine.arena.live? handle = some clause →
    clause ∈ second
  dead : ∀ handle, handle ∈ positive ∨ handle ∈ negative ∨ handle ∈ redundant →
    after.arena.live? handle = none
  spares : engine.Spares (positive ++ negative ++ redundant) after
  takes : engine.Takes (first.map Clause.literals ++ second.map Clause.literals ++ gone)
    ((first.filter fun clause => !clause.isRedundant).map (fun clause =>
        Record.ofClause literal clause.literals) ++
      (second.filter fun clause => !clause.isRedundant).map fun clause =>
        Record.ofClause literal.complement clause.literals) [literal.var] after

namespace Replaced

variable {positive negative : List Handle} {first second : List Clause}
  {gone : List (List Literal)}

section Sides

variable (replaced : Replaced literal positive negative redundant gate first second gone base engine
  after)

include replaced

omit [Realm]

theorem same : engine.Side literal positive redundant := replaced.extended.side replaced.splits.own

theorem opposite : engine.Side literal.complement negative redundant := by
  refine Extends.side ?_ replaced.splits.others
  rw [Literal.var_complement replaced.splits.present]
  exact replaced.extended

theorem withLiteral : ∀ clause ∈ first, literal ∈ clause.literals := by
  intro clause member
  obtain ⟨handle, inside, live⟩ := replaced.ownFirst clause member
  obtain ⟨found, liveFound, has⟩ := replaced.same.all handle inside
  rw [live, Option.some.injEq] at liveFound
  exact liveFound ▸ has

theorem withComplement : ∀ clause ∈ second, literal.complement ∈ clause.literals := by
  intro clause member
  obtain ⟨handle, inside, live⟩ := replaced.ownSecond clause member
  obtain ⟨found, liveFound, has⟩ := replaced.opposite.all handle inside
  rw [live, Option.some.injEq] at liveFound
  exact liveFound ▸ has

/-- The redundant clauses of a split are so. -/
theorem redundant_of_mem {handle : Handle} {clause : Clause} (inside : handle ∈ redundant)
    (live : engine.arena.live? handle = some clause) : clause.isRedundant = true := by
  obtain ⟨old, liveOld, isRedundant⟩ := replaced.splits.redundant handle inside
  rw [replaced.extended.redundant handle old clause liveOld live]
  exact isRedundant

/-- Everything of the sides has a record. -/
theorem records_eq : ((first.filter fun clause => !clause.isRedundant).map (fun clause =>
      Record.ofClause literal clause.literals) ++
    (second.filter fun clause => !clause.isRedundant).map fun clause =>
      Record.ofClause literal.complement clause.literals) =
    recordsOfSides literal (first.map Clause.literals) (second.map Clause.literals) := by
  have allFirst : first.filter (fun clause => !clause.isRedundant) = first := by
    refine List.filter_eq_self.2 fun clause member => ?_
    obtain ⟨handle, inside, live⟩ := replaced.ownFirst clause member
    simp [replaced.same.irredundant handle inside clause live]
  have allSecond : second.filter (fun clause => !clause.isRedundant) = second := by
    refine List.filter_eq_self.2 fun clause member => ?_
    obtain ⟨handle, inside, live⟩ := replaced.ownSecond clause member
    simp [replaced.opposite.irredundant handle inside clause live]
  rw [allFirst, allSecond]
  simp [recordsOfSides, Function.comp_def]

theorem isOpen : ∀ other ∈ engine.trail.facts, other.var ≠ literal.var := by
  intro other atRoot
  rcases replaced.extended.root other atRoot with earlier | new
  · exact replaced.splits.removable.isOpen other earlier
  · exact new

theorem unmentioned :
    ∀ literals ∈ after.picture.formula, ∀ other ∈ literals, other.var ≠ literal.var :=
  unmentioned_of_dead replaced.takes replaced.splits.present replaced.same replaced.opposite
    replaced.isOpen replaced.dead

theorem unprotected : ¬ engine.trail.Frozen literal.var := by
  rw [replaced.extended.flags.frozen]
  exact replaced.splits.removable.unprotected

theorem notRemoved : ¬ engine.trail.Removed literal.var := by
  rw [replaced.extended.flags.removed]
  exact replaced.splits.removable.kept

/-- The variables of the records are those of the removed clauses. -/
theorem present_of_record [Realm] (sound : engine.Sound) {record : Record}
    (isRecord : record ∈
      recordsOfSides literal (first.map Clause.literals) (second.map Clause.literals)) :
    record.chosen.var = literal.var ∧
      ∀ other ∈ record.literals, engine.picture.Present other.var := by
  rcases List.mem_append.1 isRecord with ofFirst | ofSecond
  · obtain ⟨_, ofClause, rfl⟩ := List.mem_map.1 ofFirst
    obtain ⟨clause, member, rfl⟩ := List.mem_map.1 ofClause
    obtain ⟨handle, _, live⟩ := replaced.ownFirst clause member
    exact ⟨rfl, fun other inside => (sound.admits live).present other
      ((Record.mem_ofClause (replaced.withLiteral clause member)).1 inside)⟩
  · obtain ⟨_, ofClause, rfl⟩ := List.mem_map.1 ofSecond
    obtain ⟨clause, member, rfl⟩ := List.mem_map.1 ofClause
    obtain ⟨handle, _, live⟩ := replaced.ownSecond clause member
    exact ⟨Literal.var_complement replaced.splits.present, fun other inside =>
      (sound.admits live).present other
        ((Record.mem_ofClause (replaced.withComplement clause member)).1 inside)⟩

end Sides

/-- A model of what is left satisfies one of the sides apart from the variable. -/
theorem holdsApart (replaced : Replaced literal positive negative redundant gate first second gone
      base engine after) (sound : base.Sound) (holds : after.CoreHolds values) :
    (∀ literals ∈ first.map Clause.literals, HoldsApart literal.var values literals) ∨
      ∀ literals ∈ second.map Clause.literals, HoldsApart literal.var values literals := by
  have stays : ∀ part ∈ engine.core, (∀ other ∈ part, other.var ≠ literal.var) →
      ClauseHolds values part := by
    intro part inCore apart
    rcases replaced.takes.core_of_spares replaced.spares inCore with
      kept | ⟨handle, inside, clause, live, irredundant, rfl⟩
    · exact holds part kept
    · exfalso
      rcases List.mem_append.1 inside with ofSides | isRedundant
      · rcases List.mem_append.1 ofSides with isPositive | isNegative
        · exact apart literal (replaced.withLiteral clause
            (replaced.allFirst handle isPositive clause live)) rfl
        · exact apart _ (replaced.withComplement clause
            (replaced.allSecond handle isNegative clause live))
            (Literal.var_complement replaced.splits.present)
      · rw [replaced.redundant_of_mem isRedundant live] at irredundant
        cases irredundant
  refine (allApart_of_resolved sound replaced.splits
    (fun count counter isGate => replaced.gateExact count counter isGate values) replaced.resolved
    stays).imp (fun all => ?_) fun all => ?_
  · exact replaced.extended.holdsApart replaced.splits.own.all replaced.ownFirst all
  · exact replaced.extended.holdsApart replaced.splits.others.all replaced.ownSecond all

/-- The formula lost a variable. -/
theorem leads (replaced : Replaced literal positive negative redundant gate first second gone base
      engine after) (soundBase : base.Sound) (sound : engine.Sound) :
    engine.Leads .removal after := by
  have takes := replaced.takes
  rw [replaced.records_eq] at takes
  refine takes.leads ?_ ?_ (fun pure values holds => ?_) (List.nodup_singleton _)
    (List.forall_mem_singleton.2 replaced.splits.present)
    (List.forall_mem_singleton.2 replaced.notRemoved) ?_
  · exact fun record isRecord => (replaced.present_of_record sound isRecord).2
  · intro record isRecord
    rw [(replaced.present_of_record sound isRecord).1]
    exact replaced.unprotected
  · -- Without redundant clauses everything that went has a record.
    have noneGone : gone = [] := by
      refine List.eq_nil_iff_forall_not_mem.2 fun literals member => ?_
      obtain ⟨handle, inside, copy, live, _⟩ := replaced.ownGone literals member
      obtain ⟨found, alive⟩ := Arena.live?_eq_some.1 live
      have isPure := pure _ copy (Arena.get?_eq_some.1 found).2 alive
      rw [replaced.redundant_of_mem inside live] at isPure
      cases isPure
    have split := takes.contents
    rw [noneGone, List.append_nil] at split
    have sameFormula : Picture.formula { engine.picture with clauses := after.arena.contents } =
        after.picture.formula := by
      unfold Picture.formula
      change {literals | literals ∈ after.arena.contents ∨
        ∃ literal ∈ engine.trail.facts, literals = [literal]} = _
      rw [← takes.root]
      rfl
    have core : after.CoreHolds values := fun literals inCore =>
      holds literals (sameFormula ▸ Engine.core_subset_formula inCore)
    refine Picture.holds_unwind_sides replaced.splits.present split
      (List.forall_mem_map.2 replaced.withLiteral) (List.forall_mem_map.2 replaced.withComplement)
      ?_ (replaced.holdsApart soundBase core) holds
    rw [sameFormula]
    exact replaced.unmentioned
  · rintro name single
    rw [List.mem_singleton.1 single]
    exact ⟨replaced.unprotected, replaced.unmentioned⟩

/-- The irredundant part lost what it said about the variable, and the records bring it
back. -/
theorem quantifies (replaced : Replaced literal positive negative redundant gate first second gone
      base engine after) (soundBase : base.Sound) (sound : engine.Sound) :
    engine.Quantifies literal.var after where
  numVars := replaced.takes.numVars
  forth values holds literals inCore := holds literals (replaced.takes.core_subset inCore)
  back := by
    refine ⟨_, replaced.takes.pushed, ?_, fun values holds => ?_⟩ <;> rw [replaced.records_eq]
    · intro record isRecord
      obtain ⟨chosen, present⟩ := replaced.present_of_record sound isRecord
      refine ⟨chosen, fun other inside => ?_⟩
      obtain ⟨positive, inRange, _⟩ := present other inside
      exact ⟨positive, inRange⟩
    · obtain ⟨sides, agree⟩ := clauseHolds_unwind_recordsOfSides replaced.splits.present
        (List.forall_mem_map.2 replaced.withLiteral)
        (List.forall_mem_map.2 replaced.withComplement) (replaced.holdsApart soundBase holds)
      intro literals inCore
      rcases replaced.takes.core_of_spares replaced.spares inCore with
        kept | ⟨handle, inside, clause, live, irredundant, rfl⟩
      · have apart := HoldsApart.of_unmentioned (holds literals kept)
          (replaced.unmentioned literals (Engine.core_subset_formula kept))
        exact (apart.of_agree agree).clauseHolds
      rcases List.mem_append.1 inside with ofSides | isRedundant
      · refine sides _ (List.mem_append.2 ((List.mem_append.1 ofSides).imp ?_ ?_))
        · exact fun isPositive => List.mem_map_of_mem (replaced.allFirst handle isPositive clause live)
        · exact fun isNegative =>
            List.mem_map_of_mem (replaced.allSecond handle isNegative clause live)
      · rw [replaced.redundant_of_mem isRedundant live] at irredundant
        cases irredundant

end Replaced

/-- If a variable is gone it is mentioned nowhere. -/
def GoneFrom (engine : Engine) (pivot : Nat) : Prop :=
  engine.trail.Removed pivot →
    ∀ literals ∈ engine.picture.formula, ∀ other ∈ literals, other.var ≠ pivot

omit [Realm] in
theorem goneFrom_of_kept {engine : Engine} (kept : ¬ engine.trail.Removed pivot) :
    GoneFrom engine pivot := fun removed => absurd removed kept

omit [Realm] in
/-- Counting changes nothing of it. -/
theorem Replaced.of_takes {positive negative : List Handle} {first second : List Clause}
    {gone : List (List Literal)} {later : Engine}
    (replaced : Replaced literal positive negative redundant gate first second gone base engine after)
    (arena : later.arena = after.arena) (counted : after.Takes [] [] [] later) :
    Replaced literal positive negative redundant gate first second gone base engine later :=
  { replaced with
    dead := fun handle which => counted.dead (replaced.dead handle which)
    spares := fun handle clause live absent => by
      rw [arena]
      exact replaced.spares handle clause live absent
    takes := by
      have takes := replaced.takes.trans counted
      simp only [List.append_nil] at takes
      exact takes }

/-- Both sides and the redundant clauses go, and the variable is marked. -/
theorem removeSides_ends {α : Type} {positive negative : List Handle}
    {next : List Nat → Work Eliminator α} {done : α → Tool Eliminator × Engine → Prop}
    {failed : Error → Tool Eliminator × Engine → Prop} (sound : base.Sound)
    (splits : base.Splits literal positive negative redundant)
    (gateExact : ∀ count counter, gate = some (count, counter) → ∀ values,
      (base.AllApart literal.var values (positive.take count) ↔
        ¬ base.AllApart literal.var values (negative.take counter)))
    (extends_ : Extends base literal.var state.2)
    (isResolved : Resolved base literal.var gate positive.zipIdx negative.zipIdx state.2)
    (inStep : state.2.InStep)
    (rest : ∀ names first second gone after, after.1 = state.1 →
      Replaced literal positive negative redundant gate first second gone base state.2 after.2 →
      (∀ name ∈ names, name ∈ touched ∨ ∃ handle clause,
        state.2.arena.live? handle = some clause ∧ ∃ other ∈ clause.literals, other.var = name) →
      (next names).Ends after done failed) :
    (do
      let touched ← removeSide literal positive touched
      let touched ← removeSide literal.complement negative touched
      redundant.forM fun handle => (Engine.removeIfLive handle : Work Eliminator Unit)
      Engine.handle (.eliminated literal.var)
      next touched : Work Eliminator α).Ends state done failed := by
  refine (Run.Ends.lift (removeSide_ends _ inStep)).bind ?_
  rintro seenFirst afterFirst
    ⟨toolFirst, first, takesFirst, deadFirst, ownFirst, allFirst, sparesFirst, fromFirst⟩
  refine (Run.Ends.lift (removeSide_ends _ takesFirst.inStep)).bind ?_
  rintro seenSecond afterSecond
    ⟨toolSecond, second, takesSecond, deadSecond, ownSecond, allSecond, sparesSecond, fromSecond⟩
  rw [forM_lift]
  refine (Run.Ends.lift (Engine.removeAllLive_ends redundant takesSecond.inStep)).bind ?_
  rintro _ afterGone ⟨toolGone, gone, takesGone, deadGone, ownGone, sparesGone⟩
  refine (Run.Ends.lift (Engine.handle_removed_ends takesGone.inStep (.inl rfl))).bind ?_
  rintro _ retired ⟨toolRetired, takesRetired, sameArena, _⟩
  have ownSecondEarly : ∀ clause ∈ second, ∃ handle ∈ negative,
      state.2.arena.live? handle = some clause := by
    intro clause member
    obtain ⟨handle, inside, live⟩ := ownSecond clause member
    exact ⟨handle, inside, takesFirst.older handle clause live⟩
  -- No clause is on both sides.
  have apart : ∀ handle, handle ∈ positive → handle ∈ negative →
      ∀ clause, state.2.arena.live? handle = some clause → False := by
    intro handle isPositive isNegative clause live
    obtain ⟨first, liveFirst, has⟩ := splits.own.all handle isPositive
    obtain ⟨_, liveSecond, hasComplement⟩ := splits.others.all handle isNegative
    rw [liveFirst, Option.some.injEq] at liveSecond
    exact (sound.admits liveFirst).proper literal has (liveSecond ▸ hasComplement)
  refine rest _ first second gone retired ?_ {
    splits := splits
    gateExact := gateExact
    extended := extends_
    resolved := isResolved
    ownFirst := ownFirst
    ownSecond := ownSecondEarly
    ownGone := fun literals member => ?_
    allFirst := allFirst
    allSecond := fun handle inside clause live =>
      allSecond handle inside clause (sparesFirst handle clause live fun isPositive =>
        apart handle isPositive inside clause live)
    dead := ?_
    spares := fun handle clause live absent => ?_
    takes := ?_ } fun name member => ?_
  · rw [toolRetired, toolGone, toolSecond, toolFirst]
  · obtain ⟨handle, inside, clause, live, same⟩ := ownGone literals member
    exact ⟨handle, inside, clause,
      takesFirst.older handle clause (takesSecond.older handle clause live), same⟩
  · rintro handle (inFirst | inSecond | isRedundant)
    · exact takesRetired.dead (takesGone.dead (takesSecond.dead (deadFirst handle inFirst)))
    · exact takesRetired.dead (takesGone.dead (deadSecond handle inSecond))
    · exact takesRetired.dead (deadGone handle isRedundant)
  · rw [sameArena]
    simp only [List.mem_append, not_or] at absent
    exact sparesGone handle clause (sparesSecond handle clause
      (sparesFirst handle clause live absent.1.1) absent.1.2) absent.2
  · have takes := takesFirst.trans (takesSecond.trans (takesGone.trans takesRetired))
    simp only [List.append_nil, List.nil_append] at takes
    rw [← List.append_assoc] at takes
    exact takes
  · rcases fromSecond name member with earlier | ⟨clause, inSecond, mentions⟩
    · refine (fromFirst name earlier).imp_right ?_
      rintro ⟨clause, inFirst, mentions⟩
      obtain ⟨handle, _, live⟩ := ownFirst clause inFirst
      exact ⟨handle, clause, live, mentions⟩
    · obtain ⟨handle, _, live⟩ := ownSecondEarly clause inSecond
      exact .inr ⟨handle, clause, live, mentions⟩

/-- The clauses with a variable are replaced by their resolvents. -/
theorem worksOn_replaceByResolvents (isPivot : (Literal.ofVar pivot true).var = pivot)
    (held : Held start state.1)
    (splits : state.2.Splits (Literal.ofVar pivot true) sides.positive.toList sides.negative.toList
      redundant) (exact_ : ∀ count counter, sides.gate = some (count, counter) → ∀ values,
      (state.2.AllApart pivot values (sides.positive.toList.take count) ↔
        ¬ state.2.AllApart pivot values (sides.negative.toList.take counter)))
    (names : ∀ name ∈ touched, 0 < name) :
    WorksOn pivot (replaceByResolvents pivot sides redundant touched) state
      fun touched after => (Held start after.1 ∧ ∀ name ∈ touched, 0 < name) ∧
        GoneFrom after.2 pivot := by
  refine .of_sound fun (sound : state.2.Sound) => ?_
  unfold replaceByResolvents
  dsimp only
  generalize Literal.ofVar pivot true = literal at splits isPivot ⊢
  subst isPivot
  refine .bind (worksOn_resolveAll _ held .refl (hasOwn_of_side splits.own)
    (hasOwn_of_side splits.others) names) fun seen resolved leads
    ⟨⟨heldResolved, namesResolved⟩, ⟨extends_, _⟩, isResolved⟩ => ?_
  intro (soundResolved : resolved.2.Sound)
  refine removeSides_ends sound splits exact_ extends_ isResolved leads.inStep ?_
  rintro names first second gone ⟨_, retired⟩ rfl replaced fromSides
  have positiveNames : ∀ name ∈ sortedNumbers (names ++ [literal.var]), 0 < name := by
    intro name member
    rcases List.mem_append.1 (mem_sortedNumbers.1 member) with earlier | last
    · rcases fromSides name earlier with earlier | ⟨handle, clause, live, other, inside, rfl⟩
      · exact namesResolved name earlier
      · exact ((soundResolved.admits live).present other inside).1
    · rw [List.mem_singleton.1 last]
      exact splits.present
  -- What was counted in the end is of no account.
  have finish : ∀ tally : Tally, (resolved.2.Leads .removal { retired with tally := tally } ∧
      resolved.2.Quantifies literal.var { retired with tally := tally }) ∧
        (Held start resolved.1 ∧ ∀ name ∈ sortedNumbers (names ++ [literal.var]), 0 < name) ∧
        GoneFrom { retired with tally := tally } literal.var := by
    intro tally
    have counted : retired.Takes [] [] [] { retired with tally := tally } :=
      .of_same replaced.takes.inStep rfl rfl rfl rfl rfl rfl rfl rfl rfl
    have replaced : Replaced literal _ _ _ _ first second gone state.2 resolved.2
        { retired with tally := tally } := replaced.of_takes rfl counted
    exact ⟨⟨replaced.leads sound soundResolved, replaced.quantifies sound soundResolved⟩,
      ⟨heldResolved, positiveNames⟩, fun _ => replaced.unmentioned⟩
  refine .step rfl ?_
  split
  · exact .step rfl (.pure (finish _))
  · exact .step rfl (.pure (finish _))

/-! ## Deciding about a variable -/

/-- Eliminating within the bounds keeps what is said of others. -/
theorem worksOn_decideElimination (isPivot : (Literal.ofVar pivot true).var = pivot)
    (held : Held start state.1)
    (splits : state.2.Splits (Literal.ofVar pivot true) sides.positive.toList sides.negative.toList
      redundant) (exact_ : ∀ count counter, sides.gate = some (count, counter) → ∀ values,
      (state.2.AllApart pivot values (sides.positive.toList.take count) ↔
        ¬ state.2.AllApart pivot values (sides.negative.toList.take counter)))
    (names : ∀ name ∈ touched, 0 < name) :
    WorksOn pivot (decideElimination pivot sides redundant touched) state
      fun touched after => (Held start after.1 ∧ ∀ name ∈ touched, 0 < name) ∧
        GoneFrom after.2 pivot := by
  have kept := splits.removable.kept
  rw [isPivot] at kept
  unfold decideElimination forecast
  refine .bind (.step rfl rfl (worksOn_forecastAll _ held))
    fun found ⟨tool, engine⟩ _ ⟨held, same⟩ => ?_
  dsimp only at same held
  subst same
  split
  · exact .pure ⟨⟨held, names⟩, goneFrom_of_kept kept⟩
  refine .step rfl rfl (.step rfl rfl ?_)
  dsimp only
  split
  · exact .pure ⟨⟨held, names⟩, goneFrom_of_kept kept⟩
  · refine .step rfl rfl ?_
    exact worksOn_replaceByResolvents isPivot ⟨held.graph, held.heap⟩ splits exact_ names

/-- A gate search reorders the sides; a gate that it finds defines the variable. -/
theorem searchGate_looks {positive negative : Array Handle} (sound : engine.Sound)
    (small : 2 * pivot + 1 < UInt32.size) (positivePivot : 0 < pivot)
    (splits : engine.Splits (Literal.ofVar pivot true) positive.toList negative.toList redundant) :
    (searchGate pivot positive negative).Looks engine fun sides =>
      engine.Splits (Literal.ofVar pivot true) sides.positive.toList sides.negative.toList
        redundant ∧
      ∀ count counter, sides.gate = some (count, counter) → ∀ values,
        (engine.AllApart pivot values (sides.positive.toList.take count) ↔
          ¬ engine.AllApart pivot values (sides.negative.toList.take counter)) := by
  refine Run.Looks.read.imp ?_ fun _ _ impossible => impossible
  rintro sides _ ⟨rfl, searched⟩
  have defines := Gate.search?_spec sound positivePivot small splits.own.all splits.others.all
    searched
  exact ⟨rfl, ⟨splits.own.of_perm defines.positive, splits.others.of_perm defines.negative,
    splits.redundant, splits.removable, splits.present⟩, defines.exact⟩

/-- The same with the blocked clauses removed first. -/
theorem worksOn_afterBlocked (small : 2 * pivot + 1 < UInt32.size) (positivePivot : 0 < pivot)
    (held : Held start state.1)
    (splits : state.2.Splits (Literal.ofVar pivot true) sides.positive.toList sides.negative.toList
      redundant) :
    WorksOn pivot (afterBlocked pivot sides redundant) state
      fun touched after => (Held start after.1 ∧ ∀ name ∈ touched, 0 < name) ∧
        GoneFrom after.2 pivot := by
  have isPivot : (Literal.ofVar pivot true).var = pivot := Literal.var_ofVar positivePivot small
  have sameVar : (Literal.ofVar pivot true).complement.var = pivot :=
    (Literal.var_complement splits.present).trans isPivot
  have blocked := @worksOn_removeBlockedSide (Literal.ofVar pivot true)
  have blockedComplement := @worksOn_removeBlockedSide (Literal.ofVar pivot true).complement
  rw [isPivot] at blocked
  rw [sameVar] at blockedComplement
  unfold afterBlocked
  refine .bind (blocked held splits (by simp)) ?_
  rintro ⟨enough, positive, touched⟩ first _ ⟨held, splits, names⟩
  dsimp only at splits names ⊢
  have kept := splits.removable.kept
  rw [isPivot] at kept
  split
  swap
  · exact .pure ⟨⟨held, names⟩, goneFrom_of_kept kept⟩
  refine .bind (blockedComplement held splits.swap names) ?_
  rintro ⟨enough, negative, touched⟩ second _ ⟨held, swapped, names⟩
  dsimp only at swapped names ⊢
  have kept := swapped.removable.kept
  rw [sameVar] at kept
  split
  swap
  · exact .pure ⟨⟨held, names⟩, goneFrom_of_kept kept⟩
  have both := swapped.swap
  rw [Literal.complement_complement splits.present] at both
  refine .of_sound fun (sound : second.2.Sound) => ?_
  split
  · refine .look (searchGate_looks sound small positivePivot both).lift ?_
    rintro found ⟨splits, exact_⟩
    exact worksOn_decideElimination isPivot held splits exact_ names
  · refine .step rfl rfl ?_
    exact worksOn_decideElimination isPivot held both nofun names

/-- An attempt to eliminate a variable. -/
theorem worksOn_eliminate (removable : state.2.Removable pivot) (positivePivot : 0 < pivot)
    (held : Held start state.1) :
    WorksOn pivot (eliminate pivot) state
      fun touched after => (Held start after.1 ∧ ∀ name ∈ touched, 0 < name) ∧
        GoneFrom after.2 pivot := by
  refine .of_sound fun (sound : state.2.Sound) => ?_
  have small := removable.small sound
  have isPivot : (Literal.ofVar pivot true).var = pivot := Literal.var_ofVar positivePivot small
  have untouched : GoneFrom state.2 pivot := goneFrom_of_kept removable.kept
  unfold eliminate
  refine .look (clausesWith_looks sound.listed).lift ?_
  rintro ⟨positive, positiveRedundant⟩ ⟨own, _, ownRedundant⟩
  refine .look (clausesWith_looks sound.listed).lift ?_
  rintro ⟨negative, negativeRedundant⟩ ⟨others, _, othersRedundant⟩
  dsimp only at own ownRedundant others othersRedundant ⊢
  have splits : state.2.Splits (Literal.ofVar pivot true) positive negative
      (positiveRedundant ++ negativeRedundant) :=
    .of_sides (by rwa [isPivot]) (by rwa [isPivot]) own others
      (fun handle member =>
        have ⟨clause, live, isRedundant, _⟩ := ownRedundant handle member
        ⟨clause, live, isRedundant⟩)
      fun handle member =>
        have ⟨clause, live, isRedundant, _⟩ := othersRedundant handle member
        ⟨clause, live, isRedundant⟩
  refine .step rfl rfl ?_
  have finish : ∀ (tool : Tool Eliminator) (sides : GateSides), Held start tool →
      state.2.Splits (Literal.ofVar pivot true) sides.positive.toList sides.negative.toList
        (positiveRedundant ++ negativeRedundant) →
      (∀ count counter, sides.gate = some (count, counter) → ∀ values,
        (state.2.AllApart pivot values (sides.positive.toList.take count) ↔
          ¬ state.2.AllApart pivot values (sides.negative.toList.take counter))) →
      WorksOn pivot (if (sides.gate.isNone && state.2.settings.skips positive.length
          negative.length) = true then pure []
        else if state.2.settings.blockedDuringElimination = true then
          afterBlocked pivot sides (positiveRedundant ++ negativeRedundant)
        else decideElimination pivot sides (positiveRedundant ++ negativeRedundant) [])
        (tool, state.2) fun touched after => (Held start after.1 ∧ ∀ name ∈ touched, 0 < name) ∧
          GoneFrom after.2 pivot := by
    intro tool sides held splits exact_
    split
    · exact .pure ⟨⟨held, by simp⟩, untouched⟩
    split
    · exact worksOn_afterBlocked small positivePivot held splits
    · exact worksOn_decideElimination isPivot held splits exact_ (by simp)
  dsimp only
  by_cases gates : state.2.settings.gates = true
  · simp only [gates, if_true]
    refine .bind (worksOn_spend held) fun enough ⟨tool, engine⟩ _ ⟨held, same⟩ => ?_
    dsimp only at same held
    subst same
    split
    · refine .look (.lift (searchGate_looks sound small positivePivot splits)) ?_
      rintro sides ⟨splits, exact_⟩
      exact finish tool sides held splits exact_
    · exact .pure ⟨⟨held, by simp⟩, untouched⟩
  · simp only [gates, if_false, Bool.false_eq_true]
    exact .step rfl rfl (finish _ _ held splits nofun)

/-! ## The loop over the heap -/

/-- Offering a variable leaves the tool ready. -/
theorem works_offer {name : Nat} (positive : 0 < name) (ready : Ready state.1) :
    Works scope (offer name) state fun _ after => Ready after.1 := by
  unfold offer
  refine .look Run.Looks.read.lift fun removable _ => ?_
  split
  · refine (works_onHeap (VarHeap.insert_ends ready.heap positive)).imp ?_
    rintro _ after ⟨_, subsumer, heap⟩
    exact ⟨subsumer ▸ ready.plain, heap⟩
  · exact .pure ready

/-- One turn: a variable is tried, and what its elimination touched is looked after. -/
theorem works_step (ready : Ready state.1) :
    Works .removal step state fun _ after => Ready after.1 := by
  unfold step
  refine .bind (works_onHeap (VarHeap.select_ends ready.heap))
    fun selected ⟨tool, engine⟩ _ ⟨same, subsumer, heap, positive⟩ => ?_
  dsimp only at same subsumer heap
  subst same
  have ready : Ready tool := ⟨subsumer ▸ ready.plain, heap⟩
  cases selected with
  | none => exact .pure ready
  | some name =>
  refine .bind (works_spend ready) fun enough ⟨tool, engine⟩ _ ⟨ready, same⟩ => ?_
  dsimp only at same ready
  subst same
  split
  swap
  · exact .pure ready
  refine .look Run.Looks.read.lift fun removable found => ?_
  split
  swap
  · exact .pure ready
  next isRemovable =>
  rw [isRemovable] at found
  refine .bind (worksOn_eliminate (Engine.removable_of_isRemovable? found) (positive name rfl)
    .refl).works fun touched eliminated _ ⟨⟨held, names⟩, _⟩ => ?_
  have ready := held.ready ready
  split
  · exact .pure ready
  refine .bind (works_lift ready Engine.works_propagateUnits) fun _ propagated _ ⟨ready, _⟩ => ?_
  have fresh : Subsumer.Ready none (propagated.1.own.subsumer, propagated.2) :=
    ⟨ready.plain, nofun, nofun⟩
  refine .bind (works_onSubsumer (Subsumer.works_drain fresh).to_removal) fun _ subsumed _ ⟨heap, plain⟩ => ?_
  refine .bind (Works.forM ⟨plain, heap ▸ ready.heap⟩ fun other member state ready =>
    works_offer (names other (List.mem_filter.1 member).1) ready) fun _ offered _ ready => ?_
  exact .pure ready

omit [Realm] in
/-- The loop comes to what its turns come to, one after the other. -/
theorem loop_induction {motive : Nat × Nat × Nat → Tool Eliminator × Engine →
      Outcome (Tool Eliminator × Engine) Unit → Prop}
    (again : ∀ reached state after outcome, step state = .done true after →
      Further (progress after) reached → motive (progress after) after outcome →
      motive reached state outcome)
    (stalls : ∀ reached state after, step state = .done true after →
      ¬ Further (progress after) reached → motive reached state (.stuck .outOfFuel))
    (ends : ∀ reached state after, step state = .done false after →
      motive reached state (.done () after))
    (fails : ∀ reached state cause after, step state = .failed cause after →
      motive reached state (.failed cause after))
    (stops : ∀ reached state why, step state = .stuck why → motive reached state (.stuck why))
    (reached : Nat × Nat × Nat) (state : Tool Eliminator × Engine) :
    motive reached state (loop reached state) := by
  induction reached, state using loop.induct with
  | case1 reached state after stepped further ih =>
    rw [loop]
    simp only [stepped, further, dite_true]
    exact again reached state after _ stepped further ih
  | case2 reached state after stepped stalled =>
    rw [loop]
    simp only [stepped, stalled, dite_false]
    exact stalls reached state after stepped stalled
  | case3 reached state after stepped =>
    rw [loop]
    simp only [stepped]
    exact ends reached state after stepped
  | case4 reached state cause after stepped =>
    rw [loop]
    simp only [stepped]
    exact fails reached state cause after stepped
  | case5 reached state why stepped =>
    rw [loop]
    simp only [stepped]
    exact stops reached state why stepped

omit [Realm] in
/-- What every turn keeps holds when the loop is over. -/
theorem loop_ends {keeps : Tool Eliminator × Engine → Prop}
    {failed : Error → Tool Eliminator × Engine → Prop}
    (turns : ∀ state, keeps state → step.Ends state (fun _ after => keeps after) failed)
    (reached : Nat × Nat × Nat) (holds : keeps state) :
    Run.Ends (loop reached) state (fun _ after => keeps after) failed :=
  loop_induction (motive := fun _ state outcome => keeps state →
      Run.Ends (fun _ => outcome) state (fun _ after => keeps after) failed)
    (fun _ state _ _ stepped _ rest holds => rest ((turns state holds).done_of_eq stepped))
    (fun _ _ _ _ _ _ => trivial)
    (fun _ state _ stepped holds => (turns state holds).done_of_eq stepped)
    (fun _ state _ _ stepped holds => (turns state holds).failed_of_eq stepped)
    (fun _ _ _ _ _ => trivial) reached state holds

theorem works_loop (reached : Nat × Nat × Nat) (ready : Ready state.1) :
    Works .removal (loop reached) state fun _ after => Ready after.1 := by
  intro sound
  refine loop_ends (fun middle ⟨leads, ready⟩ => ?_) reached ⟨.refl sound, ready⟩
  exact (works_step ready).resume sound leads

/-- From a subsumer without graph, elimination works. -/
theorem works_run (plain : state.1.own.subsumer.own.graph = none) :
    Works .removal run state fun _ _ => True := by
  unfold run
  refine .bind Engine.works_propagateUnits.lift fun _ ⟨tool, engine⟩ _ ⟨same, _⟩ => ?_
  dsimp only at same
  subst same
  refine .step rfl rfl ?_
  have cleared : (Run.update fun heap => (VarHeap.expand heap engine.numVars).clear).Ends
      state.1.own.heap (fun _ after => after.Positive) fun _ _ => False :=
    .update fun after done => VarHeap.positive_of_clear done
  refine .bind (works_onHeap cleared) fun _ after _ ⟨_, subsumer, heap⟩ => ?_
  refine .step rfl rfl ?_
  have ready : Ready after.1 := ⟨subsumer ▸ plain, heap⟩
  have offers : ∀ start : Tool Eliminator × Engine, Ready start.1 →
      Works .removal ((List.range' 1 engine.numVars).forM offer) start
        fun _ after => Ready after.1 := fun start ready =>
    .forM ready fun name member state ready => works_offer (List.mem_range'_1.1 member).1 ready
  refine .bind (offers _ ⟨ready.plain, ready.heap⟩) fun _ offered _ ready => ?_
  refine .bind (works_loop _ ready) fun _ looped _ ready => ?_
  have emptied : (Run.update VarHeap.clear).Ends looped.1.own.heap (fun _ _ => True)
      fun _ _ => False := .update fun _ _ => trivial
  exact (works_onHeap emptied).imp fun _ _ _ => trivial

/-- Elimination comes to a conclusion. -/
theorem process_ends (sound : state.2.Sound) :
    process.Ends state (fun status after => state.2.Concludes .removal status after.2)
      fun _ _ => False := by
  refine Work.process_ends sound fun tool => .step rfl rfl ?_
  exact .step rfl rfl (works_run rfl)

end Eliminator

end CnfSimplifier
