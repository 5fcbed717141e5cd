import CnfSimplifier.Proofs.ChangeCounter
import CnfSimplifier.Proofs.EliminationPlan

/-!
# Eliminating variables in one pass

During a pass clauses are removed lazily and the proof is not told. So a pass is
described by a formula with pending removals: the clauses that were deleted, in
the order in which the proof is told of them at the end. The eliminated variables
are mentioned nowhere any more, and they go at the end as well.
-/
namespace CnfSimplifier

namespace Batch

variable {state after : Batch × Engine} {literal : Literal} {pivot : Nat} {engine : Engine}
  {failed : Error → Batch × Engine → Prop}

/-! ## Carrying a plan out -/

/-- Clauses are recorded. -/
theorem recordAll_returns {ι : Type} (items : List ι) (pair : ι → Handle × Literal)
    (issued : ∀ item ∈ items, engine.Issued (pair item).1) :
    (items.forM fun item => recordClause (pair item).2 (pair item).1).Returns engine
      fun _ after => after = { engine with
        records := engine.records.pushAll
          (items.map fun item => engine.arena.recordOf (pair item)) } := by
  induction items generalizing engine with
  | nil => exact .pure rfl
  | cons item rest ih =>
    obtain ⟨⟨clause, found⟩, others⟩ := List.forall_mem_cons.1 issued
    have first : (recordClause (pair item).2 (pair item).1).Returns engine fun _ after =>
        after = { engine with
          records := engine.records.pushAll [engine.arena.recordOf (pair item)] } := by
      refine .step (Engine.clause_of_get? found) (.of_done rfl ?_)
      unfold Arena.recordOf
      rw [Arena.text_of_get? found, ← Reconstruction.push_eq_pushAll]
    refine Run.Returns.bind first ?_
    rintro _ _ rfl
    refine Run.Returns.imp (ih others) ?_
    rintro _ _ rfl
    dsimp only
    rw [← Reconstruction.pushAll_append]
    rfl

/-- Nothing is assigned or decided, and handles go on naming what they named. -/
structure Aloof (engine after : Engine) : Prop where
  inStep : after.InStep
  endures : engine.Endures after
  irredundant : engine.arena.Irredundant → after.arena.Irredundant
  trail : after.trail = engine.trail
  unsat : after.unsat = engine.unsat
  poisoned : after.poisoned = engine.poisoned
  settings : after.settings = engine.settings
  applied : after.applied = engine.applied

theorem Aloof.refl (inStep : engine.InStep) : Aloof engine engine :=
  ⟨inStep, .refl engine, id, rfl, rfl, rfl, rfl, rfl⟩

theorem Aloof.trans {engine middle after : Engine} (first : Aloof engine middle)
    (second : Aloof middle after) : Aloof engine after :=
  ⟨second.inStep, first.endures.trans second.endures,
    fun pure => second.irredundant (first.irredundant pure), second.trail.trans first.trail,
    second.unsat.trans first.unsat, second.poisoned.trans first.poisoned,
    second.settings.trans first.settings, second.applied.trans first.applied⟩

/-- Records are pushed. -/
theorem Aloof.recorded {records : Reconstruction} (inStep : engine.InStep) :
    Aloof engine { engine with records := records } :=
  ⟨inStep.of_same rfl rfl rfl rfl, .of_aside rfl rfl, id, rfl, rfl, rfl, rfl, rfl⟩

/-- The engine after clauses came. -/
structure Stores (engine : Engine) (new : List (List Literal)) (after : Engine) : Prop
    extends Aloof engine after where
  contents : after.arena.contents = new + engine.arena.contents
  older : ∀ handle clause, engine.arena.get? handle = some clause →
    after.arena.get? handle = some clause
  log : after.picture.log = engine.picture.log.map (· ++ new.map ProofStep.added)
  records : after.records = engine.records

theorem Stores.refl (inStep : engine.InStep) : Stores engine [] engine :=
  ⟨.refl inStep, by simp, fun _ _ found => found, by simp, rfl⟩

theorem Stores.trans {engine middle after : Engine} {new more : List (List Literal)}
    (first : Stores engine new middle) (second : Stores middle more after) :
    Stores engine (new ++ more) after where
  toAloof := first.toAloof.trans second.toAloof
  contents := by
    rw [second.contents, first.contents, ← Multiset.coe_add, ← add_assoc,
      add_comm (Multiset.ofList more)]
  older handle clause found := second.older handle clause (first.older handle clause found)
  log := by
    rw [second.log, first.log, Option.map_map]
    simp [Function.comp_def]
  records := second.records.trans first.records

/-- New clauses are noted down, and nothing else. -/
structure Gains (state after : Batch × Engine) : Prop where
  deleted : after.1.deleted = state.1.deleted
  eliminated : after.1.eliminated = state.1.eliminated
  removable : after.1.removable = state.1.removable
  known : ∀ handle ∈ after.1.resolvents.toList,
    handle ∈ state.1.resolvents.toList ∨ after.2.Issued handle

/-- A resolvent is stored as it is, if there is a name for it. -/
theorem storeResolvent_fares {literals : List Literal} (inStep : state.2.InStep)
    (sorted : literals.Pairwise (· < ·)) (owns : ∀ literal ∈ literals, state.2.Owns literal) :
    (storeResolvent literals).Fares state
      (fun _ after => Stores state.2 [literals] after.2 ∧ Gains state after) failed := by
  have stored : (do
      let handle ← Engine.insertClause literals false
      let stored ← Engine.clause handle
      Engine.updateIndex fun index => index.add handle stored.literals
      pure handle : Run Engine Handle).Fares { state.2 with
        proof := state.2.proof.map fun steps => steps.push (.added literals) }
      (fun handle after => Stores state.2 [literals] after ∧ after.Issued handle)
      (fun _ _ => False) := by
    have inStepProved : Engine.InStep { state.2 with
        proof := state.2.proof.map fun steps => steps.push (.added literals) } :=
      inStep.of_same rfl rfl rfl rfl
    refine ⟨Engine.insertClause_seq inStepProved sorted fun after inserts => .pure ⟨?_, ?_⟩,
      Engine.safe_insertClause inStepProved.roomy (fun literal member => (owns literal member).2)
        (.inr rfl) fun _ _ => .pure⟩
    · refine ⟨⟨inserts.inStep, .of_push owns inserts.slots inserts.epoch inserts.trail,
        fun pure => inserts.irredundant pure rfl, inserts.trail, inserts.unsat, inserts.poisoned,
        inserts.settings, inserts.applied⟩, ?_, fun handle clause found => ?_, ?_, inserts.records⟩
      · rw [inserts.contents, Multiset.coe_singleton, Multiset.singleton_add]
      · exact (inserts.grows sorted).older handle clause found
      · unfold Engine.picture
        rw [inserts.proof]
        simp [Function.comp_def]
    · have space : after.arena.slots.size < UInt32.size := inserts.inStep.space
      have size : after.arena.slots.size = state.2.arena.slots.size + 1 := by
        rw [inserts.slots, Array.size_push]
      have place : (state.2.arena.handleAt state.2.arena.slots.size).index =
          state.2.arena.slots.size := Arena.index_handleAt (by omega)
      refine ⟨Clause.ofLiterals literals false, Arena.get?_eq_some.2 ⟨inserts.epoch.symm, ?_⟩⟩
      change after.arena.slots[(state.2.arena.handleAt state.2.arena.slots.size).index]? = _
      rw [place, inserts.slots]
      exact Array.getElem?_push_size
  have sequence : storeResolvent literals = (liftM (Engine.prove (.added literals)) :
      Run (Batch × Engine) Unit) >>= fun _ => (liftM (do
        let handle ← Engine.insertClause literals false
        let stored ← Engine.clause handle
        Engine.updateIndex fun index => index.add handle stored.literals
        pure handle : Run Engine Handle) : Run (Batch × Engine) Handle) >>= fun handle =>
          modifyBatch fun batch => { batch with resolvents := batch.resolvents.push handle } := by
    unfold storeResolvent
    simp only [← bind_lift, bind_assoc]
    rfl
  rw [sequence]
  refine .step rfl ((stored.lift.imp (fun _ _ => id) fun _ _ held => held.2.elim).bind ?_)
  rintro handle ⟨batch, engine⟩ ⟨same, stores, issued⟩
  dsimp only at same
  subst same
  refine .of_done rfl ⟨stores, rfl, rfl, rfl, fun other member => ?_⟩
  rw [Array.toList_push] at member
  refine (List.mem_append.1 member).imp_right fun last => ?_
  rw [List.mem_singleton.1 last]
  exact issued

/-- All resolvents of a plan are stored, if there is room. -/
theorem storeAll_fares (new : List (List Literal)) (inStep : state.2.InStep)
    (sorted : ∀ literals ∈ new, literals.Pairwise (· < ·))
    (owns : ∀ literals ∈ new, ∀ literal ∈ literals, state.2.Owns literal) :
    (new.forM storeResolvent).Fares state
      (fun _ after => Stores state.2 new after.2 ∧ Gains state after) failed := by
  induction new generalizing state with
  | nil => exact .pure ⟨.refl inStep, rfl, rfl, rfl, fun _ => .inl⟩
  | cons literals rest ih =>
    obtain ⟨ascending, sortedRest⟩ := List.forall_mem_cons.1 sorted
    obtain ⟨own, ownsRest⟩ := List.forall_mem_cons.1 owns
    refine Run.Meets.bind (storeResolvent_fares inStep ascending own) ?_
    rintro _ middle ⟨stores, gains⟩
    refine (ih stores.inStep sortedRest fun literals member literal inside =>
      stores.endures.owns.2 (ownsRest literals member literal inside)).imp ?_ fun _ _ failed => failed
    rintro _ after ⟨further, more⟩
    refine ⟨stores.trans further, more.deleted.trans gains.deleted,
      more.eliminated.trans gains.eliminated, more.removable.trans gains.removable,
      fun handle member => ?_⟩
    rcases more.known handle member with earlier | new
    · exact (gains.known handle earlier).imp_right further.endures.issued
    · exact .inr new

/-- The engine after clauses were removed lazily. -/
structure Unlinks (engine : Engine) (handles : List Handle) (after : Engine) : Prop
    extends Aloof engine after where
  contents : engine.arena.contents =
    (handles.map engine.arena.text : List _) + after.arena.contents
  text : ∀ handle clause, engine.arena.get? handle = some clause →
    ∃ copy, after.arena.get? handle = some copy ∧ copy.literals = clause.literals
  records : after.records = engine.records
  proof : after.proof = engine.proof

/-- A live clause can be removed lazily. -/
theorem removeLazily_returns {handle : Handle} {clause : Clause} (inStep : engine.InStep)
    (live : engine.arena.live? handle = some clause) :
    (removeLazily handle).Returns engine fun _ after =>
      engine.Removes handle clause after ∧ after.proof = engine.proof := by
  obtain ⟨found, _⟩ := Arena.live?_eq_some.1 live
  obtain ⟨index, unlisted, _⟩ := Occurrences.exists_removeLazily (inStep.listed.index_lt live)
  obtain ⟨arena, removed⟩ : ∃ arena, engine.arena.remove handle = some arena := by
    simp [Arena.remove, found]
  refine .step (Engine.clause_of_get? found) (.step (Engine.updateIndex_of_eq_some unlisted) ?_)
  refine .of_done (Engine.updateArena_of_eq_some removed) ⟨?_, rfl⟩
  exact Engine.removes_of_arena inStep live removed
    (inStep.toFiled.removeLazily live unlisted removed)

/-- Different live clauses can all be taken away lazily. -/
theorem removeAllLazily_returns (handles : List Handle) (inStep : engine.InStep)
    (distinct : handles.Nodup)
    (live : ∀ handle ∈ handles, ∃ clause, engine.arena.live? handle = some clause) :
    (handles.forM removeLazily).Returns engine fun _ after => Unlinks engine handles after := by
  induction handles generalizing engine with
  | nil =>
    exact .pure ⟨.refl inStep, by simp, fun _ clause found => ⟨clause, found, rfl⟩, rfl, rfl⟩
  | cons handle rest ih =>
    obtain ⟨absent, distinctRest⟩ := List.nodup_cons.1 distinct
    obtain ⟨⟨clause, own⟩, liveRest⟩ := List.forall_mem_cons.1 live
    obtain ⟨found, alive⟩ := Arena.live?_eq_some.1 own
    refine Run.Returns.bind (removeLazily_returns inStep own) ?_
    rintro _ middle ⟨removes, proof⟩
    have different : ∀ other ∈ rest, other ≠ handle := fun other member same =>
      absent (same ▸ member)
    have keeps : ∀ other, other ≠ handle →
        middle.arena.get? other = engine.arena.get? other := fun other isOther =>
      removes.get?_of_ne own isOther
    have liveAfter : ∀ other ∈ rest, ∃ clause, middle.arena.live? other = some clause := by
      intro other member
      unfold Arena.live?
      rw [keeps other (different other member)]
      exact liveRest other member
    have texts : rest.map middle.arena.text = rest.map engine.arena.text := by
      refine List.map_congr_left fun other member => ?_
      unfold Arena.text
      rw [keeps other (different other member)]
    have aloof : Aloof engine middle := by
      refine ⟨removes.inStep, ?_, removes.irredundant own, removes.trail, removes.unsat,
        removes.poisoned, removes.settings, removes.applied⟩
      refine .of_narrows (.of_set (Arena.get?_eq_some.1 found).2 removes.slots removes.epoch
        (List.Sublist.refl _)) ?_ removes.trail
      rw [removes.slots, Array.size_setIfInBounds]
    refine (ih removes.inStep distinctRest liveAfter).imp ?_
    rintro _ after unlinks
    refine ⟨aloof.trans unlinks.toAloof, ?_, fun other stored lookedUp => ?_,
      unlinks.records.trans removes.records, unlinks.proof.trans proof⟩
    · rw [removes.contents, unlinks.contents, texts, List.map_cons, Arena.text_of_live? own,
        ← Multiset.cons_coe, Multiset.cons_add]
    · by_cases same : other = handle
      · subst same
        obtain rfl : stored = clause := by
          rw [(Arena.live?_eq_some.1 own).1, Option.some.injEq] at lookedUp
          exact lookedUp.symm
        obtain ⟨copy, again, sameLiterals⟩ := unlinks.text other _
          (Arena.get?_self_of_slots lookedUp removes.slots removes.epoch)
        exact ⟨copy, again, sameLiterals⟩
      · exact unlinks.text other stored ((keeps other same).trans lookedUp)

/-- The engine after a plan was carried out: clauses came, records were pushed and
clauses were removed lazily. -/
structure Carries (engine : Engine) (new : List (List Literal)) (records : List Record)
    (removed : List Handle) (after : Engine) : Prop extends Aloof engine after where
  contents : (new : Multiset (List Literal)) + engine.arena.contents =
    (removed.map engine.arena.text : List _) + after.arena.contents
  log : after.picture.log = engine.picture.log.map (· ++ new.map ProofStep.added)
  records : after.records = engine.records.pushAll records
  text : ∀ handle clause, engine.arena.get? handle = some clause →
    ∃ copy, after.arena.get? handle = some copy ∧ copy.literals = clause.literals

/-- Clauses are recorded, others come, those are recorded that are replaced, and the
removals follow. -/
theorem Carries.of_parts {middle last : Engine} {new : List (List Literal)}
    {early late : List Record} {removed : List Handle} (inStep : engine.InStep)
    (live : ∀ handle ∈ removed, ∃ clause, engine.arena.get? handle = some clause)
    (stores : Stores { engine with records := engine.records.pushAll early } new middle)
    (unlinks : Unlinks { middle with records := middle.records.pushAll late } removed last) :
    Carries engine new (early ++ late) removed last := by
  have texts : removed.map middle.arena.text = removed.map engine.arena.text := by
    refine List.map_congr_left fun handle member => ?_
    obtain ⟨clause, found⟩ := live handle member
    rw [Arena.text_of_get? found, Arena.text_of_get? (stores.older handle clause found)]
  refine ⟨.trans (.recorded inStep) (stores.toAloof.trans
    (.trans (.recorded stores.inStep) unlinks.toAloof)), ?_, ?_, ?_, fun handle clause found => ?_⟩
  · rw [← texts]
    exact stores.contents.symm.trans unlinks.contents
  · have same : last.picture.log = middle.picture.log :=
      congrArg (Option.map Array.toList) unlinks.proof
    rw [same]
    exact stores.log
  · rw [unlinks.records]
    change middle.records.pushAll late = _
    rw [stores.records, Reconstruction.pushAll_append]
  · exact unlinks.text handle clause (stores.older handle clause found)

/-- Clauses come, and those of two sides, which were there before, are recorded. -/
theorem recordSides_fares {α : Type} {resolvents : List (List Literal)} {positive negative : List Handle}
    {next : Run (Batch × Engine) α} {done : α → Batch × Engine → Prop} (inStep : state.2.InStep)
    (sorted : ∀ literals ∈ resolvents, literals.Pairwise (· < ·))
    (owns : ∀ literals ∈ resolvents, ∀ literal ∈ literals, state.2.Owns literal)
    (known : ∀ handle ∈ positive ++ negative, ∃ clause, state.2.arena.get? handle = some clause)
    (rest : ∀ batch middle, Stores state.2 resolvents middle → Gains state (batch, middle) →
      next.Fares (batch, { middle with
        records := middle.records.pushAll (recordsOfSides literal
          (positive.map state.2.arena.text) (negative.map state.2.arena.text)) }) done failed) :
    (do
      resolvents.forM storeResolvent
      positive.forM fun handle => (recordClause literal handle : Run (Batch × Engine) Unit)
      negative.forM fun handle =>
        (recordClause literal.complement handle : Run (Batch × Engine) Unit)
      next).Fares state done failed := by
  rw [forM_lift, forM_lift]
  refine Run.Meets.bind (storeAll_fares resolvents inStep sorted owns) ?_
  rintro _ ⟨batch, middle⟩ ⟨stores, gains⟩
  have issued : ∀ handle ∈ positive ++ negative, middle.Issued handle := by
    intro handle inside
    obtain ⟨clause, found⟩ := known handle inside
    exact ⟨clause, stores.older handle clause found⟩
  refine Run.Meets.bind (.of_returns (recordAll_returns positive (fun handle => (handle, literal))
    fun handle inside => issued handle (List.mem_append_left _ inside)).lift) ?_
  rintro _ ⟨_, recorded⟩ ⟨same, isRecorded⟩
  dsimp only at same isRecorded
  subst same isRecorded
  refine Run.Meets.bind (.of_returns (recordAll_returns negative
    (fun handle => (handle, literal.complement))
    fun handle inside => by exact issued handle (List.mem_append_right _ inside)).lift) ?_
  rintro _ ⟨_, recorded⟩ ⟨same, isRecorded⟩
  dsimp only at same isRecorded
  rw [← Reconstruction.pushAll_append] at isRecorded
  subst same isRecorded
  have texts : ∀ handle ∈ positive ++ negative,
      middle.arena.text handle = state.2.arena.text handle := by
    intro handle inside
    obtain ⟨clause, found⟩ := known handle inside
    rw [Arena.text_of_get? found, Arena.text_of_get? (stores.older handle clause found)]
  have late : (positive.map fun handle => middle.arena.recordOf (handle, literal)) ++
      (negative.map fun handle => middle.arena.recordOf (handle, literal.complement)) =
        recordsOfSides literal (positive.map state.2.arena.text)
          (negative.map state.2.arena.text) := by
    unfold recordsOfSides Arena.recordOf
    rw [List.map_map, List.map_map]
    congr 1
    · exact List.map_congr_left fun handle inside => by
        simp [texts handle (List.mem_append_left _ inside)]
    · exact List.map_congr_left fun handle inside => by
        simp [texts handle (List.mem_append_right _ inside)]
  have meets := rest _ middle stores gains
  rw [← late] at meets
  exact meets

/-- What carrying out a plan notes down. -/
structure Notes (pivot : Nat) (plan : EliminationPlan) (state after : Batch × Engine) : Prop where
  deleted : after.1.deleted.toList = state.1.deleted.toList ++ plan.removed
  eliminated : after.1.eliminated.toList =
    state.1.eliminated.toList ++ (if plan.eliminate then [pivot] else [])
  removable : ∀ name : Nat, after.1.removable[name]? = some true →
    state.1.removable[name]? = some true ∧ (plan.eliminate = true → name ≠ pivot)
  size : after.1.removable.size = state.1.removable.size
  resolvents : ∀ handle ∈ after.1.resolvents.toList,
    handle ∈ state.1.resolvents.toList ∨ after.2.Issued handle

/-- A sensible plan is carried out, as long as there are names for its clauses. -/
theorem commit_fares {plan : EliminationPlan} (inStep : state.2.InStep)
    (sensible : Sensible state.2 (Literal.ofVar pivot true) plan)
    (sorted : plan.eliminate = true → ∀ literals ∈ plan.resolvents.toList,
      literals.Pairwise (· < ·))
    (owns : plan.eliminate = true → ∀ literals ∈ plan.resolvents.toList,
      ∀ literal ∈ literals, state.2.Owns literal) :
    (commit pivot plan).Fares state (fun _ after =>
      Carries state.2 plan.added (plan.recorded state.2.arena (Literal.ofVar pivot true))
        plan.removed after.2 ∧ Notes pivot plan state after) failed := by
  have live : ∀ handle ∈ plan.removed, ∃ clause, state.2.arena.live? handle = some clause :=
    fun handle inside => sensible.live handle (plan.removed_sublist.subset inside)
  have distinct := plan.removed_sublist.nodup sensible.distinct
  have known : ∀ handle ∈ plan.removed, ∃ clause, state.2.arena.get? handle = some clause := by
    intro handle inside
    obtain ⟨clause, isLive⟩ := live handle inside
    exact ⟨clause, (Arena.live?_eq_some.1 isLive).1⟩
  unfold commit
  dsimp only
  rw [forM_lift]
  obtain ⟨_, _, recorded, rfl⟩ := @recordAll_returns state.2 _ plan.blocked id
    fun pair inside => known _ (List.mem_append_left _ (List.mem_map_of_mem inside))
  refine .step (Run.lift_of_done recorded) ?_
  have inStepRecorded : Engine.InStep { state.2 with
      records := state.2.records.pushAll (plan.blocked.map state.2.arena.recordOf) } :=
    inStep.of_same rfl rfl rfl rfl
  cases eliminate : plan.eliminate with
  | false =>
    have removed : plan.blocked.map Prod.fst ++ [] = plan.removed := by
      simp [EliminationPlan.removed, eliminate]
    simp only [Bool.false_eq_true, if_false]
    rw [removed, forM_lift]
    refine Run.Meets.bind (.of_returns (.lift
      (removeAllLazily_returns plan.removed inStepRecorded distinct live))) ?_
    rintro _ ⟨batch, engine⟩ ⟨same, unlinks⟩
    dsimp only at same
    subst same
    have carries : Carries state.2 [] (plan.blocked.map state.2.arena.recordOf ++ []) plan.removed
        engine := .of_parts inStep known (.refl inStepRecorded) unlinks
    refine .step rfl (.pure ⟨?_, by simp, by simp [eliminate], fun name isTrue => ⟨isTrue, ?_⟩, rfl,
      fun _ => .inl⟩)
    · simpa [EliminationPlan.added, EliminationPlan.recorded, eliminate] using carries
    · simp [eliminate]
  | true =>
    have removed : plan.blocked.map Prod.fst ++
        (plan.positive.toList ++ plan.negative.toList ++ plan.redundant) = plan.removed := by
      simp [EliminationPlan.removed, eliminate]
    simp only [if_true]
    rw [removed]
    refine recordSides_fares inStepRecorded (sorted eliminate) (owns eliminate)
      (fun handle inside => ?_) fun batch middle stores gains => ?_
    · refine known handle ?_
      rw [← removed]
      exact List.mem_append_right _ (List.mem_append_left _ inside)
    have liveMiddle : ∀ handle ∈ plan.removed, ∃ clause,
        middle.arena.live? handle = some clause := by
      intro handle inside
      obtain ⟨clause, isLive⟩ := live handle inside
      obtain ⟨found, alive⟩ := Arena.live?_eq_some.1 isLive
      exact ⟨clause, Arena.live?_eq_some.2 ⟨stores.older handle clause found, alive⟩⟩
    have inStepMiddle : ∀ late, Engine.InStep { middle with
        records := middle.records.pushAll late } := fun _ =>
      stores.inStep.of_same rfl rfl rfl rfl
    rw [forM_lift]
    refine Run.Meets.bind (.of_returns (.lift
      (removeAllLazily_returns plan.removed (inStepMiddle _) distinct liveMiddle))) ?_
    have deleted : batch.deleted = state.1.deleted := gains.deleted
    have eliminated : batch.eliminated = state.1.eliminated := gains.eliminated
    rintro _ ⟨_, last⟩ ⟨same, unlinks⟩
    dsimp only at same
    subst same
    have carries := Carries.of_parts inStep known stores unlinks
    refine .step rfl (.of_done rfl ⟨?_, by simp [deleted], by simp [eliminated, eliminate],
      fun name isTrue => ?_, ?_, fun handle inside => ?_⟩)
    · simpa [EliminationPlan.added, EliminationPlan.recorded, eliminate] using carries
    · rw [← gains.removable]
      rw [Array.getElem?_setIfInBounds] at isTrue
      split at isTrue
      · split at isTrue
        · cases isTrue
        · cases isTrue
      next different => exact ⟨isTrue, fun _ => Ne.symm different⟩
    · exact Array.size_setIfInBounds.trans (congrArg Array.size gains.removable)
    · exact (gains.known handle inside).imp_right unlinks.endures.issued

/-! ## What is counted -/

theorem unseen_modifyBatch {change : Batch → Batch} : Unseen (modifyBatch change) :=
  fun _ _ => .of_done rfl (.refl _)

theorem unseen_recordClause {chosen : Literal} {handle : Handle} :
    Unseen (recordClause chosen handle) :=
  Engine.unseen_clause.bind fun _ => Engine.unseen_pushRecord

theorem unseen_storeResolvent {literals : List Literal} : Unseen (storeResolvent literals) :=
  Engine.unseen_prove.lift.bind fun _ => Engine.unseen_insertClause.lift.bind fun _ =>
    Engine.unseen_clause.lift.bind fun _ => Engine.unseen_updateIndex.lift.bind fun _ =>
    unseen_modifyBatch

theorem unseen_removeLazily {handle : Handle} : Unseen (removeLazily handle) :=
  Engine.unseen_clause.bind fun _ => Engine.unseen_updateIndex.bind fun _ =>
    Engine.unseen_updateArena

/-- Carrying out a plan is not counted before the pass is over. -/
theorem unseen_commit {plan : EliminationPlan} : Unseen (commit pivot plan) := by
  refine Unseen.bind (.forM fun _ => unseen_recordClause.lift) fun _ => ?_
  have removal : ∀ handles : List Handle,
      Unseen (handles.forM fun handle => (removeLazily handle : Run (Batch × Engine) Unit)) :=
    fun _ => .forM fun _ => unseen_removeLazily.lift
  split
  · exact Unseen.bind (.forM fun _ => unseen_storeResolvent) fun _ =>
      Unseen.bind (.forM fun _ => unseen_recordClause.lift) fun _ =>
      Unseen.bind (.forM fun _ => unseen_recordClause.lift) fun _ =>
      (removal _).bind fun _ => unseen_modifyBatch.bind fun _ => unseen_modifyBatch
  · exact (removal _).bind fun _ => unseen_modifyBatch.bind fun _ => .pure

/-! ## A pass -/

/-- How far a pass has come: the formula with pending removals, and the variables
that are to go. As long as there are neither, nothing happened. -/
structure Passing [Realm] (base : Engine) (state : Batch × Engine) : Prop
    extends Aloof base state.2 where
  uncounted : base.Uncounted state.2
  steps : Steps .removal base.picture { state.2.picture with
    pending := (state.1.deleted.toList.map state.2.arena.text : List _) }
  stored : ∀ handle ∈ state.1.deleted.toList, state.2.Issued handle
  resolvents : ∀ handle ∈ state.1.resolvents.toList, state.2.Issued handle
  eliminated : ∀ name ∈ state.1.eliminated.toList, base.Removable name ∧
    ∀ literals ∈ state.2.picture.formula, ∀ literal ∈ literals, literal.var ≠ name
  distinct : state.1.eliminated.toList.Nodup
  positive : ∀ name ∈ state.1.eliminated.toList, 0 < name
  idle : state.1.deleted.toList = [] → state.1.eliminated.toList = [] → state.2 = base
  size : state.1.removable.size = base.trail.vars.size
  removable : ∀ name : Nat, state.1.removable[name]? = some true →
    0 < name ∧ base.Removable name ∧ name ∉ state.1.eliminated.toList

variable [Realm] {base : Engine}

/-- In the middle of a pass the engine is sound. -/
theorem Passing.sound (passing : Passing base state) (sound : base.Sound) : state.2.Sound := by
  refine ⟨passing.inStep, ?_⟩
  obtain ⟨admits, present, distinct⟩ := Steps.wellFormed passing.steps sound.wellFormed
  exact ⟨fun literals clause => (admits literals clause).of_same_vars rfl rfl, present, distinct⟩

/-- Making a plan leaves a pass where it is. -/
theorem Passing.of_thinks (passing : Passing base state) (thinks : Thinks state after) :
    Passing base after := by
  obtain ⟨batch, engine⟩ := after
  obtain ⟨rfl, deleted, resolvents, eliminated, removable⟩ := thinks
  dsimp only at deleted resolvents eliminated removable
  refine ⟨passing.toAloof, passing.uncounted, ?steps, ?stored, ?resolvents, ?eliminated, ?distinct,
    ?positive, ?idle, ?size, ?removable⟩
  case steps => exact deleted ▸ passing.steps
  case stored => exact deleted ▸ passing.stored
  case resolvents => exact resolvents ▸ passing.resolvents
  case eliminated => exact eliminated ▸ passing.eliminated
  case distinct => exact eliminated ▸ passing.distinct
  case positive => exact eliminated ▸ passing.positive
  case idle => exact deleted ▸ eliminated ▸ passing.idle
  case size => exact removable ▸ passing.size
  case removable => exact removable ▸ eliminated ▸ passing.removable

omit [Realm] in
/-- Where a variable is eliminated the rest of the formula does not mention it. -/
theorem Carries.exists_kept {plan : EliminationPlan} {engine last : Engine} {records : List Record}
    (carries : Carries engine plan.added records plan.removed last)
    (space : engine.arena.slots.size ≤ UInt32.size) (sensible : Sensible engine literal plan)
    (eliminate : plan.eliminate = true) :
    ∃ kept : Multiset (List Literal),
      engine.arena.contents = (plan.handles.map engine.arena.text : List _) + kept ∧
      last.arena.contents = plan.resolvents.toList + kept ∧
      ∀ literals ∈ kept, ∀ other ∈ literals, other.var ≠ literal.var := by
  obtain ⟨kept, split, fromOthers⟩ :=
    Arena.exists_without space sensible.distinct sensible.live
  refine ⟨kept, split, ?_, fun literals inside other isOther same => ?_⟩
  · have contents := carries.contents
    rw [plan.removed_of_eliminate eliminate, plan.added_of_eliminate eliminate, split,
      add_left_comm] at contents
    exact (add_left_cancel contents).symm
  · obtain ⟨handle, clause, live, rfl, outside⟩ := fromOthers literals inside
    exact outside (sensible.covers handle clause live other isOther same)

omit [Realm] in
/-- Where all clauses are irredundant no redundant ones go. -/
theorem Sensible.texts_redundant {plan : EliminationPlan} (sensible : Sensible engine literal plan)
    (pure : engine.arena.Irredundant) : plan.redundant.map engine.arena.text = [] := by
  rw [List.map_eq_nil_iff, List.eq_nil_iff_forall_not_mem]
  intro handle inside
  obtain ⟨clause, live, isRedundant⟩ := sensible.redundant handle inside
  obtain ⟨found, alive⟩ := Arena.live?_eq_some.1 live
  rw [pure _ clause (Arena.get?_eq_some.1 found).2 alive] at isRedundant
  cases isRedundant

omit [Realm] in
/-- The texts of the clauses of a plan are those of the blocked ones and of both sides. -/
theorem texts_handles (plan : EliminationPlan) (arena : Arena) :
    (plan.handles.map arena.text : Multiset (List Literal)) =
      (plan.blocked.map fun pair => arena.text pair.1 : List _) +
        (plan.positive.toList.map arena.text ++ plan.negative.toList.map arena.text ++
          plan.redundant.map arena.text : List _) := by
  rw [EliminationPlan.handles, Multiset.coe_add, List.map_append, List.map_append, List.map_append,
    List.map_map]
  rfl

/-- The formula goes over by steps when a plan is carried out. -/
theorem steps_of_carries {plan : EliminationPlan} {engine last : Engine} (sound : engine.Sound)
    (present : 0 < literal.var) (removable : engine.Removable literal.var)
    (sensible : Sensible engine literal plan)
    (carries : Carries engine plan.added (plan.recorded engine.arena literal) plan.removed last)
    (pending : Multiset (List Literal)) :
    Steps .removal { engine.picture with pending := pending } { last.picture with
      pending := (plan.removed.map engine.arena.text : List _) + pending } := by
  have isOpen := removable.isOpen
  have free : ∀ pair ∈ plan.blocked, ¬ engine.trail.Frozen pair.2.var ∧
      ∀ other ∈ engine.trail.facts, other.var ≠ pair.2.var := by
    intro pair inside
    rw [sensible.chosen pair inside]
    exact ⟨removable.unprotected, isOpen⟩
  have distinctBlocked : (plan.blocked.map Prod.fst).Nodup :=
    sensible.distinct.sublist (List.sublist_append_left _ _)
  have picture : last.picture = { engine.picture with
      clauses := last.arena.contents
      irredundant := last.arena.Irredundant
      records := last.records
      log := last.picture.log } := by
    unfold Engine.picture Engine.numVars
    rw [carries.trail]
  have contents := carries.contents
  rw [picture, carries.records, carries.log]
  -- At the end it is only noted that no clause became redundant.
  suffices steps : Steps .removal { engine.picture with pending := pending } { engine.picture with
      clauses := last.arena.contents
      pending := (plan.removed.map engine.arena.text : List _) + pending
      records := engine.records.pushAll (plan.recorded engine.arena literal)
      log := engine.picture.log.map (· ++ plan.added.map ProofStep.added) } from
    steps.tail (.recast last.arena.Irredundant carries.irredundant)
  cases eliminate : plan.eliminate with
  | false =>
    simp only [EliminationPlan.removed, EliminationPlan.added, EliminationPlan.recorded, eliminate,
      Bool.false_eq_true, if_false, List.append_nil, Multiset.coe_nil, zero_add, List.map_map,
      List.map_nil, Option.map_id_fun', id] at contents ⊢
    exact Engine.steps_of_blocked sound.wellFormed sound.space.le plan.blocked distinctBlocked
      sensible.turn free pending contents
  | true =>
    obtain ⟨kept, splitAll, contentsLast, unmentioned⟩ :=
      carries.exists_kept sound.space.le sensible eliminate
    have split : engine.arena.contents =
        ((plan.blocked.map fun pair => engine.arena.text pair.1 : List _) : Multiset _) +
          (((plan.positive.toList.map engine.arena.text ++ plan.negative.toList.map engine.arena.text
            ++ plan.redundant.map engine.arena.text : List _) : Multiset _) + kept) := by
      rw [splitAll, texts_handles, add_assoc]
    have first := Engine.steps_of_blocked sound.wellFormed sound.space.le plan.blocked distinctBlocked
      sensible.turn free pending split
    refine first.trans ?_
    have wellFormed := Steps.wellFormed first ⟨fun literals clause =>
      (sound.wellFormed.admits literals clause).of_same_vars rfl rfl, sound.wellFormed.known,
      sound.wellFormed.distinct⟩
    have collects := sensible.collects eliminate
    have own : ∀ resolvent ∈ plan.resolvents.toList, 2 ≤ resolvent.length ∧
        ∃ first ∈ plan.positive.toList.map engine.arena.text,
        ∃ second ∈ plan.negative.toList.map engine.arena.text,
          Resolution.resolvent? literal.var first second = some resolvent := by
      intro resolvent inside
      obtain ⟨two, first, inFirst, second, inSecond, found⟩ := collects.only resolvent inside
      exact ⟨two, _, List.mem_map_of_mem inFirst, _, List.mem_map_of_mem inSecond, found⟩
    have second := Steps.eliminate wellFormed present removable.unprotected isOpen rfl
      (sensible.positive.text) (sensible.negative.text) unmentioned
      (List.forall_mem_map.2 fun first inFirst => List.forall_mem_map.2 fun second inSecond =>
        collects.all first inFirst second inSecond) own sensible.texts_redundant
    have records : engine.records.pushAll (plan.recorded engine.arena literal) =
        (engine.records.pushAll (plan.blocked.map engine.arena.recordOf)).pushAll
          (recordsOfSides literal (plan.positive.toList.map engine.arena.text)
            (plan.negative.toList.map engine.arena.text)) := by
      simp [EliminationPlan.recorded, eliminate, Reconstruction.pushAll_append]
    have gone : ((plan.removed.map engine.arena.text : List _) : Multiset _) + pending =
        ((plan.positive.toList.map engine.arena.text ++ plan.negative.toList.map engine.arena.text
          ++ plan.redundant.map engine.arena.text : List _) : Multiset _) +
        (((plan.blocked.map fun pair => engine.arena.text pair.1 : List _) : Multiset _) +
          pending) := by
      rw [plan.removed_of_eliminate eliminate, texts_handles, ← add_assoc,
        add_comm (Multiset.ofList (plan.blocked.map _))]
    rw [records, gone, contentsLast, plan.added_of_eliminate eliminate]
    exact second

omit [Realm] in
/-- What is mentioned after a plan was carried out was mentioned before. -/
theorem Carries.mentioned {plan : EliminationPlan} {last : Engine} {records : List Record}
    (carries : Carries engine plan.added records plan.removed last)
    (sensible : Sensible engine literal plan) {literals : List Literal}
    (clause : literals ∈ last.arena.contents) {other : Literal} (member : other ∈ literals) :
    ∃ old ∈ engine.arena.contents, other ∈ old := by
  have inside : literals ∈ (plan.added : Multiset (List Literal)) + engine.arena.contents := by
    rw [carries.contents]
    exact Multiset.mem_add.2 (.inr clause)
  rcases Multiset.mem_add.1 inside with new | old
  · cases eliminate : plan.eliminate with
    | false => simp [EliminationPlan.added, eliminate] at new
    | true =>
      rw [plan.added_of_eliminate eliminate] at new
      obtain ⟨_, first, inFirst, second, inSecond, found⟩ :=
        (sensible.collects eliminate).only literals new
      obtain ⟨own, live, _⟩ := sensible.positive first inFirst
      obtain ⟨partner, livePartner, _⟩ := sensible.negative second inSecond
      rw [Arena.text_of_live? live, Arena.text_of_live? livePartner] at found
      rcases ((Resolution.mem_resolvent? found).1 member).1 with isOwn | isPartner
      · exact ⟨own.literals, Arena.contents_of_live live, isOwn⟩
      · exact ⟨partner.literals, Arena.contents_of_live livePartner, isPartner⟩
  · exact ⟨literals, old, member⟩

/-- Resolvents of a sensible plan are clauses for the formula. -/
theorem Sensible.admits {plan : EliminationPlan} (sensible : Sensible engine literal plan)
    (sound : engine.Sound) (eliminate : plan.eliminate = true) :
    ∀ literals ∈ plan.resolvents.toList, engine.picture.Admits literals := by
  intro resolvent inside
  obtain ⟨two, first, inFirst, second, inSecond, found⟩ :=
    (sensible.collects eliminate).only resolvent inside
  obtain ⟨clause, live, _⟩ := sensible.positive first inFirst
  obtain ⟨partner, livePartner, _⟩ := sensible.negative second inSecond
  rw [Arena.text_of_live? live, Arena.text_of_live? livePartner] at found
  exact Resolution.admits_resolvent? (sound.admits live) (sound.admits livePartner) found two

omit [Realm] in
/-- The root literals are as they were. -/
theorem Carries.root {engine last : Engine} {new : List (List Literal)} {records : List Record}
    {removed : List Handle} (carries : Carries engine new records removed last) :
    last.picture.root = engine.picture.root := by
  change last.trail.facts = _
  rw [carries.trail]
  rfl

omit [Realm] in
/-- A variable that was not mentioned is not mentioned after a plan was carried out. -/
theorem Carries.unmentioned {plan : EliminationPlan} {engine last : Engine} {records : List Record}
    {name : Nat} (carries : Carries engine plan.added records plan.removed last)
    (sensible : Sensible engine literal plan)
    (unmentioned : ∀ literals ∈ engine.picture.formula, ∀ literal ∈ literals, literal.var ≠ name) :
    ∀ literals ∈ last.picture.formula, ∀ literal ∈ literals, literal.var ≠ name := by
  rintro literals (clause | atRoot) other isOther
  · obtain ⟨old, inside, isOld⟩ := carries.mentioned sensible clause isOther
    exact unmentioned old (.inl inside) other isOld
  · rw [carries.root] at atRoot
    exact unmentioned literals (.inr atRoot) other isOther

/-- An eliminated variable is not mentioned any more. -/
theorem Carries.pivot_unmentioned {plan : EliminationPlan} {engine last : Engine}
    {records : List Record} (carries : Carries engine plan.added records plan.removed last)
    (sound : engine.Sound) (removable : engine.Removable literal.var)
    (sensible : Sensible engine literal plan) (eliminate : plan.eliminate = true) :
    ∀ literals ∈ last.picture.formula, ∀ other ∈ literals, other.var ≠ literal.var := by
  obtain ⟨kept, _, contents, unmentioned⟩ := carries.exists_kept sound.space.le sensible eliminate
  rintro literals (clause | ⟨unit, atRoot, rfl⟩) other isOther
  · change literals ∈ last.arena.contents at clause
    rw [contents] at clause
    rcases Multiset.mem_add.1 clause with new | old
    · obtain ⟨_, first, _, second, _, found⟩ := (sensible.collects eliminate).only literals new
      exact ((Resolution.mem_resolvent? found).1 isOther).2
    · exact unmentioned literals old other isOther
  · rw [List.mem_singleton.1 isOther]
    rw [carries.root] at atRoot
    exact removable.isOpen unit atRoot

/-- Carrying out a plan takes a pass further. -/
theorem Passing.of_carries {plan : EliminationPlan} (passing : Passing base state)
    (sound : base.Sound) (listed : state.1.removable[literal.var]? = some true)
    (sensible : Sensible state.2 literal plan) (busy : plan.blocked = [] → plan.eliminate = true)
    (carries : Carries state.2 plan.added (plan.recorded state.2.arena literal) plan.removed after.2)
    (notes : Notes literal.var plan state after) (uncounted : state.2.Uncounted after.2) :
    Passing base after := by
  have soundNow := passing.sound sound
  obtain ⟨present, removable, isNew⟩ := passing.removable literal.var listed
  have removableNow : state.2.Removable literal.var := removable.of_trail passing.trail
  have known : ∀ handle ∈ state.1.deleted.toList ++ plan.removed, ∃ clause,
      state.2.arena.get? handle = some clause := by
    refine List.forall_mem_append.2 ⟨passing.stored, fun handle inside => ?_⟩
    obtain ⟨clause, live⟩ := sensible.live handle (plan.removed_sublist.subset inside)
    exact ⟨clause, (Arena.live?_eq_some.1 live).1⟩
  have texts : (state.1.deleted.toList ++ plan.removed).map after.2.arena.text =
      (state.1.deleted.toList ++ plan.removed).map state.2.arena.text := by
    refine List.map_congr_left fun handle inside => ?_
    obtain ⟨clause, found⟩ := known handle inside
    obtain ⟨copy, again, same⟩ := carries.text handle clause found
    rw [Arena.text_of_get? found, Arena.text_of_get? again, same]
  have mem_eliminated : ∀ name, name ∈ after.1.eliminated.toList ↔
      name ∈ state.1.eliminated.toList ∨ plan.eliminate = true ∧ name = literal.var := by
    intro name
    rw [notes.eliminated]
    cases plan.eliminate <;> simp
  refine ⟨passing.toAloof.trans carries.toAloof, passing.uncounted.trans uncounted, ?steps, ?stored,
    ?resolvents, ?eliminated, ?distinct, ?positive, ?idle, notes.size.trans passing.size, ?removable⟩
  case steps =>
    rw [notes.deleted, texts, List.map_append, ← Multiset.coe_add, add_comm]
    exact passing.steps.trans (steps_of_carries soundNow present removableNow sensible carries _)
  case stored =>
    rw [notes.deleted]
    exact fun handle inside => carries.endures.issued (known handle inside)
  case resolvents =>
    intro handle inside
    exact (notes.resolvents handle inside).elim
      (fun earlier => carries.endures.issued (passing.resolvents handle earlier)) id
  case eliminated =>
    intro name inside
    rcases (mem_eliminated name).1 inside with earlier | ⟨eliminate, rfl⟩
    · obtain ⟨isRemovable, unmentioned⟩ := passing.eliminated name earlier
      exact ⟨isRemovable, carries.unmentioned sensible unmentioned⟩
    · exact ⟨removable, carries.pivot_unmentioned soundNow removableNow sensible eliminate⟩
  case distinct =>
    rw [notes.eliminated]
    cases plan.eliminate with
    | false => simpa using passing.distinct
    | true => exact List.nodup_append_comm.1 (List.nodup_cons.2 ⟨isNew, passing.distinct⟩)
  case positive =>
    intro name inside
    rcases (mem_eliminated name).1 inside with earlier | ⟨_, rfl⟩
    · exact passing.positive name earlier
    · exact present
  case idle =>
    rw [notes.deleted, notes.eliminated]
    intro noneDeleted noneEliminated
    cases eliminate : plan.eliminate with
    | true => simp [eliminate] at noneEliminated
    | false =>
      have blocked : plan.blocked = [] := by
        simpa [EliminationPlan.removed, eliminate] using (List.append_eq_nil_iff.1 noneDeleted).2
      rw [busy blocked] at eliminate
      cases eliminate
  case removable =>
    intro name isTrue
    obtain ⟨wasTrue, different⟩ := notes.removable name isTrue
    obtain ⟨isPositive, isRemovable, absent⟩ := passing.removable name wasTrue
    refine ⟨isPositive, isRemovable, fun inside => ?_⟩
    rcases (mem_eliminated name).1 inside with earlier | ⟨eliminate, same⟩
    · exact absent earlier
    · exact different eliminate same

/-- A plan for a variable and carrying it out take a pass further. -/
theorem Passing.plan_returns (sound : base.Sound) (passing : Passing base state)
    (found : state.1.removable[pivot]? = some true) :
    (plan pivot).Returns state (fun found planned => Passing base planned ∧
      ∀ plan, found = some plan → Sensible planned.2 (Literal.ofVar pivot true) plan ∧
        (commit pivot plan).Fares planned (fun _ after => Passing base after ∧
          Carries planned.2 plan.added
            (plan.recorded planned.2.arena (Literal.ofVar pivot true)) plan.removed after.2)
          failed) := by
  obtain ⟨present, removable, _⟩ := passing.removable pivot found
  have isPivot : (Literal.ofVar pivot true).var = pivot :=
    Literal.var_ofVar present (removable.small sound)
  refine (Batch.plan_returns (passing.sound sound) (removable.of_trail passing.trail) present).imp ?_
  rintro result planned ⟨thinks, good⟩
  have passingPlanned := passing.of_thinks thinks
  refine ⟨passingPlanned, fun plan isPlan => ?_⟩
  obtain ⟨sensible, busy⟩ := good plan isPlan
  rw [← thinks.engine] at sensible
  have soundPlanned := passingPlanned.sound sound
  have owns : plan.eliminate = true → ∀ literals ∈ plan.resolvents.toList, ∀ literal ∈ literals,
      planned.2.Owns literal := fun eliminate literals inside literal member =>
    Engine.owns_of_present soundPlanned.trail.nonempty
      ((sensible.admits soundPlanned eliminate literals inside).present literal member)
  refine ⟨sensible, ((commit_fares passingPlanned.inStep sensible (fun eliminate literals inside =>
    (sensible.admits soundPlanned eliminate literals inside).sorted) owns).and_ends
      (unseen_commit planned failed)).imp ?_ fun _ _ => And.left⟩
  rintro _ after ⟨⟨carries, notes⟩, uncounted⟩
  refine ⟨passingPlanned.of_carries sound ?_ sensible busy carries (by rwa [isPivot]) uncounted,
    carries⟩
  rw [isPivot, thinks.removable]
  exact found

/-- An attempt takes a pass further. -/
theorem Passing.attempt_fares (sound : base.Sound) (passing : Passing base state)
    (found : state.1.removable[pivot]? = some true) :
    (attempt pivot).Fares state (fun _ after => Passing base after) failed := by
  have planned := @Passing.plan_returns _ _ failed _ _ sound passing found
  refine Run.Meets.bind (.of_returns planned) ?_
  rintro (_ | plan) planned ⟨further, result⟩
  · exact .pure further
  · exact (result plan rfl).2.imp (fun _ _ => And.left) fun _ _ => id

section Serving

variable {admitted : Breakdown → Prop} {keeps : Batch × Engine → Prop} {known : Nat → Prop}
  {queue rest : List (Nat × Nat)} {tries : Nat}

/-- What is kept does not depend on what is counted in a pass. -/
def Uncounting (keeps : Batch × Engine → Prop) : Prop :=
  ∀ {batch engine} steps rush claimed postponed overflow, keeps (batch, engine) →
    keeps ({ batch with
      steps := steps
      rush := rush
      claimed := claimed
      postponed := postponed
      overflow := overflow }, engine)

omit [Realm] in
/-- A variable that is put off stays in the queue or leaves it. -/
theorem putOff_meets (aside : Uncounting keeps) (start : keeps state) (knownPivot : known pivot)
    (knownRest : ∀ entry ∈ rest, known entry.1) :
    (putOff pivot tries rest).Meets admitted state
      (fun (left : List (Nat × Nat)) after => keeps after ∧ ∀ entry ∈ left, known entry.1) failed := by
  refine .step rfl ?_
  split
  · refine .step rfl (.pure ⟨aside _ _ _ _ _ start, ?_⟩)
    exact List.forall_mem_append.2 ⟨knownRest, by simpa using knownPivot⟩
  · exact .step rfl (.pure ⟨aside _ _ _ _ _ start, knownRest⟩)

omit [Realm] in
/-- What attempts keep, a move keeps, whichever variable it is about. -/
theorem turn_meets (aside : Uncounting keeps)
    (there : ∀ name, known name → ∀ state, keeps state → state.1.removable[name]? = none →
      admitted .badAccess)
    (attempts : ∀ pivot state, keeps state → state.1.removable[pivot]? = some true →
      (attempt pivot).Meets admitted state (fun _ after => keeps after) failed)
    (move : Move) (queued : ∀ entry ∈ queue, known entry.1) (start : keeps state) :
    (turn move queue).Meets admitted state (fun left after => keeps after ∧
      ∀ rest, left = some rest → ∀ entry ∈ rest, known entry.1) failed := by
  refine .step rfl (.step rfl ?_)
  have begun := aside (state.1.steps + 1) move.rush.tail move.claimed state.1.postponed
    state.1.overflow start
  split
  swap
  · exact .pure ⟨begun, nofun⟩
  split
  next => exact .pure ⟨begun, nofun⟩
  next pivot tries rest chosen =>
  have knownAll : ∀ entry ∈ (pivot, tries) :: rest, known entry.1 := by
    rw [← chosen]
    exact fun entry inside => queued entry ((List.mem_append.1 inside).elim
      List.mem_of_mem_drop List.mem_of_mem_take)
  obtain ⟨knownPivot, knownRest⟩ := List.forall_mem_cons.1 knownAll
  have goesOn : ∀ left : List (Nat × Nat), (∀ entry ∈ left, known entry.1) →
      ∀ rest, some left = some rest → ∀ entry ∈ rest, known entry.1 := by
    rintro left knownLeft _ ⟨⟩
    exact knownLeft
  refine .step rfl (.access (there pivot knownPivot (_, state.2) begun) fun flag listed => ?_)
  cases flag with
  | false => exact .pure ⟨begun, goesOn rest knownRest⟩
  | true =>
    cases contended : move.contended with
    | false =>
      refine (attempts pivot _ begun listed).bind fun _ after kept => ?_
      exact .pure ⟨kept, goesOn rest knownRest⟩
    | true =>
      refine (putOff_meets aside begun knownPivot knownRest).bind fun left after ⟨kept, knownLeft⟩ => ?_
      exact .pure ⟨kept, goesOn left knownLeft⟩

omit [Realm] in
/-- What attempts keep, a pass keeps, in whatever order the variables are served and however
often they are put off. -/
theorem serve_meets (aside : Uncounting keeps)
    (there : ∀ name, known name → ∀ state, keeps state → state.1.removable[name]? = none →
      admitted .badAccess)
    (attempts : ∀ pivot state, keeps state → state.1.removable[pivot]? = some true →
      (attempt pivot).Meets admitted state (fun _ after => keeps after) failed)
    (moves : List Move) (queued : ∀ entry ∈ queue, known entry.1) (start : keeps state) :
    (serve moves queue).Meets admitted state (fun _ after => keeps after) failed := by
  induction moves generalizing state queue with
  | nil => exact .pure start
  | cons move moves ih =>
    refine (turn_meets aside there attempts move queued start).bind fun left after held => ?_
    obtain ⟨kept, knownLeft⟩ := held
    cases left with
    | none => exact .pure kept
    | some rest => exact ih (knownLeft rest rfl) kept

end Serving

/-- Serving the queue takes a pass further. -/
theorem serve_fares (sound : base.Sound) (moves : List Move) {queue : List (Nat × Nat)}
    (queued : ∀ entry ∈ queue, entry.1 < base.trail.vars.size) (passing : Passing base state) :
    (serve moves queue).Fares state (fun _ after => Passing base after) failed :=
  serve_meets (fun _ _ _ _ _ passing => passing.of_thinks ⟨rfl, rfl, rfl, rfl, rfl⟩)
    (fun _ inside _ passing outside =>
      absurd inside (Nat.not_lt.2 (passing.size ▸ Array.getElem?_eq_none_iff.1 outside)))
    (fun _ _ passing => passing.attempt_fares sound) moves queued passing

end Batch

/-! ## Around the pass -/

namespace BatchEliminator

variable {engine : Engine} {counted : List (Nat × Int)} {failed : Error → Engine → Prop}

/-- The proof is told of what was deleted. -/
theorem reportAll_ends (handles : List Handle) :
    (handles.forM reportDeleted).Ends engine (fun _ after => ∃ proof changes,
      after = { engine with proof := proof, changes := changes } ∧
      proof.map Array.toList = engine.picture.log.map
        (· ++ (handles.map engine.arena.text).map ProofStep.removed)) failed := by
  induction handles generalizing engine with
  | nil => exact .pure ⟨engine.proof, engine.changes, rfl, by simp [Engine.picture, Function.comp_def]⟩
  | cons handle rest ih =>
    have first : (reportDeleted handle).Ends engine (fun _ after => after = { engine with
        proof := engine.proof.map fun steps => steps.push (.removed (engine.arena.text handle))
        changes := engine.changes + 1 }) failed := by
      unfold reportDeleted
      refine Engine.looks_clause.bind fun clause lookedUp => .step rfl (.of_done rfl ?_)
      rw [Arena.text_of_get? lookedUp]
    refine Run.Ends.bind first ?_
    rintro _ _ rfl
    refine ih.imp ?_ fun _ _ failed => failed
    rintro _ after ⟨proof, changes, rfl, log⟩
    refine ⟨proof, changes, rfl, log.trans ?_⟩
    simp [Engine.picture, Function.comp_def]

/-- Variables go that were eliminated. -/
theorem retireAll_ends (names : List Nat) (inStep : engine.InStep) :
    (names.forM reportEliminated).Ends engine (fun _ after => engine.Takes [] [] names after)
      failed := by
  induction names generalizing engine with
  | nil => exact .pure (.refl inStep)
  | cons name rest ih =>
    have first : (reportEliminated name).Ends engine
        (fun _ after => engine.Takes [] [] [name] after) failed := by
      unfold reportEliminated
      refine (Engine.handle_removed_ends inStep (.inl rfl)).bind fun _ after ⟨takes, _⟩ => .of_done rfl ?_
      exact takes.then_same rfl rfl rfl rfl rfl rfl rfl rfl rfl
    refine Run.Ends.bind first fun _ middle takes => ?_
    refine (ih takes.inStep).imp ?_ fun _ _ failed => failed
    intro _ after takesRest
    exact takes.trans takesRest

/-- The removable variables among the given ones. -/
theorem isRemovable_of_mem {names : List Nat} (found : removableVars? engine names = some counted) :
    ∀ pair ∈ counted, pair.1 ∈ names ∧ engine.isRemovable? pair.1 = some true := by
  induction names generalizing counted with
  | nil =>
    cases found
    simp
  | cons name rest ih =>
    simp only [removableVars?, Option.bind_eq_bind, Option.bind_eq_some_iff] at found
    obtain ⟨removable, isRemovable, others, foundRest, found⟩ := found
    have fromRest : ∀ pair ∈ others, pair.1 ∈ name :: rest ∧
        engine.isRemovable? pair.1 = some true := fun pair inside =>
      (ih foundRest pair inside).imp_left (List.mem_cons_of_mem _)
    split at found
    next yes =>
      obtain ⟨rarity, _, found⟩ := Option.bind_eq_some_iff.1 found
      obtain rfl := Option.some.inj found
      exact List.forall_mem_cons.2 ⟨⟨List.mem_cons_self, yes ▸ isRemovable⟩, fromRest⟩
    next =>
      obtain rfl := Option.some.inj found
      exact fromRest

/-- The table of removable variables has the given ones only. -/
theorem mem_of_table {table : Array Bool} {name : Nat}
    (isTrue : (counted.foldl (fun table (pair : Nat × Int) => table.setIfInBounds pair.1 true)
      table)[name]? = some true) : table[name]? = some true ∨ ∃ pair ∈ counted, pair.1 = name := by
  induction counted generalizing table with
  | nil => exact .inl isTrue
  | cons pair rest ih =>
    rcases ih isTrue with here | ⟨other, inside, same⟩
    · rw [Array.getElem?_setIfInBounds] at here
      split at here
      next same => exact .inr ⟨pair, List.mem_cons_self, same⟩
      next => exact .inl here
    · exact .inr ⟨other, List.mem_cons_of_mem _ inside, same⟩

variable [Realm] {base : Engine}

/-- At the end of a pass the proof is told of the removals, and the eliminated
variables go. -/
theorem takeStock_ends {batch : Batch} (passing : Batch.Passing base (batch, engine)) :
    (takeStock batch).Ends engine (fun _ after => base.Leads .removal after) failed := by
  unfold takeStock
  refine .step rfl (.step rfl ?_)
  refine (reportAll_ends batch.deleted.toList).bind ?_
  rintro _ _ ⟨proof, changes, rfl, log⟩
  refine (retireAll_ends batch.eliminated.toList ?_).imp ?_ fun _ _ failed => failed
  · exact ⟨passing.inStep.toFiled.clean, passing.inStep.trail, passing.inStep.due⟩
  rintro _ after takes
  have contents : after.arena.contents = engine.arena.contents := by
    have same := takes.contents
    rw [Multiset.coe_nil, zero_add] at same
    exact same.symm
  have formula : after.picture.formula = engine.picture.formula := by
    unfold Picture.formula
    change {literals | literals ∈ after.arena.contents ∨
      ∃ literal ∈ after.trail.facts, literals = [literal]} = _
    rw [contents, takes.root]
    rfl
  have trail : engine.trail = base.trail := passing.trail
  have kept : ∀ name ∈ batch.eliminated.toList, ¬ engine.trail.Removed name := by
    intro name inside
    rw [trail]
    exact (passing.eliminated name inside).1.kept
  have leads := takes.leads (by simp) (by simp) (fun _ values holds => by
      rw [contents] at holds
      exact holds) passing.distinct passing.positive kept fun name inside => by
    obtain ⟨removable, unmentioned⟩ := passing.eliminated name inside
    refine ⟨?_, by rw [formula]; exact unmentioned⟩
    change ¬ engine.trail.Frozen name
    rw [trail]
    exact removable.unprotected
  have goes : base.Goes .removal after := by
    refine ⟨takes.inStep, fun narrow => absurd rfl narrow, fun accounts => ?_, fun orderly => ?_,
      fun _ => takes.dirty, takes.unsat.trans passing.unsat,
      takes.poisoned.trans passing.poisoned, takes.settings.trans passing.settings⟩
    · exact leads.accounts (trail ▸ accounts)
    · exact leads.orderly (trail ▸ orderly)
  refine .of_steps goes ?_ (takes.applied.trans passing.applied)
  refine passing.steps.trans (.trans ?_ leads.steps)
  have reports : Steps .removal _ _ :=
    Steps.report_all engine.picture (batch.deleted.toList.map engine.arena.text) 0
  have logged : proof.map Array.toList = engine.picture.log.map
      (· ++ (batch.deleted.toList.map engine.arena.text).map ProofStep.removed) := log
  rw [add_zero] at reports
  unfold Picture.logged at reports
  rw [← logged] at reports
  exact reports

omit [Realm] in
/-- A table has a place for every variable. -/
theorem size_tableOf (numVars : Nat) (counted : List (Nat × Int)) :
    (tableOf numVars counted).size = numVars + 1 := by
  suffices sizes : ∀ (counted : List (Nat × Int)) (table : Array Bool), (counted.foldl
      (fun table (pair : Nat × Int) => table.setIfInBounds pair.1 true) table).size = table.size from
    (sizes _ _).trans Array.size_replicate
  intro counted
  induction counted with
  | nil => exact fun _ => rfl
  | cons pair rest ih => exact fun table => (ih _).trans Array.size_setIfInBounds

/-- A pass starts with the removable variables. -/
theorem passing_start (sound : engine.Sound)
    (found : removableVars? engine (List.range' 1 engine.numVars) = some counted) (limit : UInt64) :
    (∀ name ∈ queueOf counted, name < engine.trail.vars.size) ∧
    Batch.Passing engine ({ removable := tableOf engine.numVars counted, limit := limit }, engine) := by
  have removable := isRemovable_of_mem found
  have count : engine.numVars + 1 = engine.trail.vars.size :=
    Nat.sub_add_cancel sound.trail.nonempty
  have among : ∀ pair ∈ counted, 0 < pair.1 ∧ pair.1 < engine.trail.vars.size := fun pair inside => by
    have := List.mem_range'_1.1 (removable pair inside).1
    omega
  have entries : ∀ name : Nat, (tableOf engine.numVars counted)[name]? = some true →
      0 < name ∧ engine.Removable name := by
    intro name isTrue
    rcases mem_of_table isTrue with initial | ⟨pair, inside, rfl⟩
    · rw [Array.getElem?_replicate] at initial
      split at initial
      · cases initial
      · cases initial
    · exact ⟨(among pair inside).1, Engine.removable_of_isRemovable? (removable pair inside).2⟩
  constructor
  · intro name inside
    obtain ⟨pair, inSorted, rfl⟩ := List.mem_map.1 inside
    exact (among pair (mem_sortBy.1 inSorted)).2
  · refine ⟨.refl sound.toInStep, .refl _, .refl, by simp, by simp, by simp, by simp, by simp,
      fun _ _ => rfl, (size_tableOf _ _).trans count, fun name isTrue => ?_⟩
    exact ⟨(entries name isTrue).1, (entries name isTrue).2, by simp⟩

omit [Realm] in
/-- A pass is serving the queue on a part of the state. -/
theorem pass_apply (queue : List Nat) (table : Array Bool) (tool : Tool BatchEliminator)
    (engine : Engine) :
    pass queue table (tool, engine) =
      ((do Batch.serve (engine.settings.moves tool.runs ++ List.replicate (queue.length + 1) ({} : Move))
            (queue.map fun name => (name, 0))
           Batch.getBatch : Run (Batch × Engine) Batch)
        ({ removable := table, limit := tool.budget.limit }, engine)).mapState
        fun part => (tool, part.2) := by
  simp only [pass, bind, Run.bind, Batch.getBatch]
  cases Batch.serve _ _ _ <;> rfl

omit [Realm] in
/-- What serving the queue comes to in whatever order, a pass comes to. -/
theorem pass_meets {admitted : Breakdown → Prop} {queue : List Nat} {table : Array Bool}
    {tool : Tool BatchEliminator} {done : Batch × Engine → Prop}
    {failed : Error → Tool BatchEliminator × Engine → Prop}
    (served : ∀ moves, (Batch.serve moves (queue.map fun name => (name, 0))).Meets admitted
      ({ removable := table, limit := tool.budget.limit }, engine)
      (fun _ after => done after) fun cause after => failed cause (tool, after.2)) :
    (pass queue table).Meets admitted (tool, engine)
      (fun batch after => done (batch, after.2) ∧ after.1 = tool) failed :=
  .within (pass_apply queue table tool engine)
    ((served _).bind fun _ _ holds => .of_done rfl ⟨holds, rfl⟩)

/-- A pass over the removable variables. -/
theorem pass_fares {tool : Tool BatchEliminator} (sound : engine.Sound)
    (found : removableVars? engine (List.range' 1 engine.numVars) = some counted)
    {failed : Error → Tool BatchEliminator × Engine → Prop} :
    (pass (queueOf counted) (tableOf engine.numVars counted)).Fares (tool, engine)
      (fun batch after => Batch.Passing engine (batch, after.2) ∧ after.1 = tool) failed := by
  obtain ⟨inside, start⟩ := passing_start sound found tool.budget.limit
  refine pass_meets fun moves => Batch.serve_fares sound moves ?_ start
  intro entry queued
  obtain ⟨name, member, rfl⟩ := List.mem_map.1 queued
  exact inside name member

/-- The subsumer works on the engine as it does on its own. -/
theorem works_onSubsumer {scope : Scope} {α : Type} {state : Tool BatchEliminator × Engine}
    {body : Work Subsumer α} {post : α → Tool Subsumer × Engine → Prop}
    (works : Works scope body (state.1.own, state.2) post) :
    Works scope (onSubsumer body) state fun value after => post value (after.1.own, after.2) := by
  exact .within (onSubsumer_apply body state) rfl (fun _ => rfl) works fun _ _ holds => holds

/-- Cleaning the index changes no clause. -/
theorem works_clean {scope : Scope} : Works scope
    (modify fun engine => { engine with index := engine.index.clean engine.arena } :
      Run Engine Unit) engine fun _ _ => True := by
  intro sound
  have inStep : Engine.InStep { engine with index := engine.index.clean engine.arena } :=
    ⟨sound.toFiled.clean, sound.trail, sound.due⟩
  refine .of_done rfl ⟨.of_steps ⟨inStep, fun _ => ?_, id, id, fun _ => rfl, rfl, rfl, rfl⟩ .refl rfl,
    trivial⟩
  exact .of_subset (.refl _) rfl (fun _ => id) fun _ => id

/-- Up to the point where the resolvents are subsumed. -/
theorem works_sweep {state : Tool BatchEliminator × Engine} :
    Works .removal sweep state fun _ after => after.1.own.own.graph = none := by
  unfold sweep
  refine .bind Engine.works_propagateUnits.lift fun _ ⟨tool, engine⟩ _ _ => ?_
  refine .bind (Works.lift works_clean) fun _ ⟨tool, engine⟩ _ _ => ?_
  refine .step rfl rfl (.look Run.Looks.access fun counted found => ?_)
  intro sound
  refine (pass_fares sound found).ends.bind fun batch ⟨tool, passed⟩ ⟨passing, _⟩ => ?_
  refine .step rfl (Run.Ends.bind (Run.Ends.lift (takeStock_ends passing)) ?_)
  rintro _ stocked ⟨_, leads⟩
  refine Works.resume ?_ sound leads
  have started : Works .removal (onSubsumer (Subsumer.start
      (engine.stepLimit engine.settings.subsumptionSteps))) stocked
      fun _ after => after.1.own.own.graph = none := .of_done rfl rfl rfl
  exact .bind started fun _ _ _ plain => .pure plain

/-- The resolvents are subsumed. -/
theorem works_tidy {batch : Batch} {state : Tool BatchEliminator × Engine}
    (plain : state.1.own.own.graph = none) : Works .removal (tidy batch) state fun _ _ => True := by
  have queued : Works .removal (batch.resolvents.toList.forM fun handle =>
      onSubsumer (Subsumer.enqueue handle)) state fun _ after => after.1.own.own.graph = none :=
    .forM plain fun handle _ state plain =>
      (works_onSubsumer (Subsumer.works_enqueue plain)).imp fun _ _ ⟨uses, _⟩ => uses
  refine .bind queued fun _ queued _ plain => ?_
  have fresh : Subsumer.Ready none (queued.1.own, queued.2) := ⟨plain, nofun, nofun⟩
  refine .bind (works_onSubsumer (Subsumer.works_drain fresh).to_removal) fun _ drained _ _ => ?_
  exact Engine.works_propagateUnits.lift.imp fun _ _ _ => trivial

theorem works_run {state : Tool BatchEliminator × Engine} :
    Works .removal run state fun _ _ => True :=
  .bind works_sweep fun _ _ _ plain => works_tidy plain

/-- Batch elimination comes to a conclusion. -/
theorem process_ends {state : Tool BatchEliminator × Engine} (sound : state.2.Sound) :
    process.Ends state (fun status after => state.2.Concludes .removal status after.2)
      fun _ _ => False :=
  Work.process_ends sound fun _ => works_run

end BatchEliminator

end CnfSimplifier
