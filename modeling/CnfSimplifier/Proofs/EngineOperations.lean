import CnfSimplifier.Tool
import CnfSimplifier.Proofs.EngineState

/-!
# The operations of the engine

What each operation of the engine does to its picture. Techniques are described
through these statements only.
-/
namespace CnfSimplifier

variable {scope : Scope} {α τ : Type} {body : Run Engine α} {state : τ × Engine}

/-- An operation of the engine used on a tool and the engine leaves the tool. -/
theorem Works.lift [Realm] {post : α → Engine → Prop} (works : Works scope body state.2 post) :
    Works scope (liftM body : Run (τ × Engine) α) state
      fun value after => after.1 = state.1 ∧ post value after.2 := by
  have same : (liftM body : Run (τ × Engine) α) state =
      (body state.2).mapState fun engine => (state.1, engine) := rfl
  exact .within same rfl (fun _ => rfl) works fun _ _ holds => ⟨rfl, holds⟩

/-- A look at the engine is a look at a tool and the engine. -/
theorem Run.Looks.lift {found : α → Prop} (looks : body.Looks state.2 found) :
    (liftM body : Run (τ × Engine) α).Looks state found := by
  have same : (liftM body : Run (τ × Engine) α) state =
      (body state.2).mapState fun engine => (state.1, engine) := rfl
  exact .within same rfl looks

/-- How an operation of the engine ends on a tool and the engine. -/
theorem Run.Ends.lift {done : α → Engine → Prop} {failed : Error → τ × Engine → Prop}
    (ends : body.Ends state.2 done fun cause after => failed cause (state.1, after)) :
    (liftM body : Run (τ × Engine) α).Ends state
      (fun value after => after.1 = state.1 ∧ done value after.2) failed := by
  have same : (liftM body : Run (τ × Engine) α) state =
      (body state.2).mapState fun engine => (state.1, engine) := rfl
  exact .within same (ends.imp (fun _ _ holds => ⟨rfl, holds⟩) fun _ _ failed => failed)

/-- A sequence of operations of the engine is an operation of the engine. -/
theorem bind_lift {β : Type} (body : Run Engine α) (next : α → Run Engine β) :
    ((liftM body : Run (τ × Engine) α) >>= fun value => (liftM (next value) : Run (τ × Engine) β)) =
      liftM (body >>= next) := by
  funext ⟨first, engine⟩
  change Run.bind (Run.onSecond body) (fun value => Run.onSecond (next value)) _ =
    Run.onSecond (Run.bind body next) _
  unfold Run.bind Run.onSecond
  dsimp only
  cases body engine <;> rfl

/-- A loop of operations of the engine is an operation of the engine. -/
theorem forM_lift {ι : Type} (items : List ι) (turn : ι → Run Engine PUnit) :
    (items.forM fun item => (liftM (turn item) : Run (τ × Engine) PUnit)) =
      liftM (items.forM turn) := by
  induction items with
  | nil => rfl
  | cons item rest ih =>
    change ((liftM (turn item) : Run (τ × Engine) PUnit) >>= fun _ =>
      rest.forM fun item => liftM (turn item)) = liftM (turn item >>= fun _ => rest.forM turn)
    rw [ih, bind_lift]

/-- Spending steps leaves everything but the budget. -/
theorem Work.works_spend [Realm] {steps : Nat} {state : Tool τ × Engine} :
    Works scope (Work.spend steps) state fun _ after =>
      after.2 = state.2 ∧ after.1.own = state.1.own :=
  .of_done rfl rfl ⟨rfl, rfl⟩

namespace Engine

variable {engine after : Engine} {literal : Literal} {handle : Handle} {clause : Clause}
  {change : ClauseFlags → ClauseFlags} {other : Handle} {literals : List Literal} {redundant : Bool}

/-! ## Looks -/

theorem looks_look {question : Engine → α} :
    (look question).Looks engine fun value => value = question engine :=
  .of_done rfl rfl

theorem looks_clause :
    (Engine.clause handle).Looks engine fun value => engine.arena.get? handle = some value := .read

/-- The occurrences are those in the list. -/
theorem looks_occurrences : (occurrences literal).Looks engine fun value =>
    ∃ handles, engine.index.list? literal = some handles ∧ value = handles.toList := by
  refine Run.Ends.read fun value found => ⟨rfl, ?_⟩
  obtain ⟨handles, list, rfl⟩ := Option.map_eq_some_iff.1 found
  exact ⟨handles, list, rfl⟩

/-- Work on the trail leaves everything else. -/
theorem onTrail_apply (body : Arena → Occurrences → Run Trail α) (engine : Engine) :
    onTrail body engine = (body engine.arena engine.index engine.trail).mapState
      fun trail => { engine with trail := trail } := by
  unfold onTrail
  cases body engine.arena engine.index engine.trail <;> rfl

/-! ## Changes of the parts -/

section Updates

variable {done : Unit → Engine → Prop} {failed : Error → Engine → Prop}

/-- Only the clauses change. -/
theorem updateArena_ends {change : Arena → Option Arena}
    (holds : ∀ arena, change engine.arena = some arena → done () { engine with arena := arena }) :
    (updateArena change).Ends engine done failed := by
  refine .update fun after changed => ?_
  simp only [Option.bind_eq_bind, Option.bind_eq_some_iff, Option.pure_def,
    Option.some.injEq] at changed
  obtain ⟨arena, found, rfl⟩ := changed
  exact holds arena found

/-- Only the index changes. -/
theorem updateIndex_ends {change : Occurrences → Option Occurrences}
    (holds : ∀ index, change engine.index = some index → done () { engine with index := index }) :
    (updateIndex change).Ends engine done failed := by
  refine .update fun after changed => ?_
  simp only [Option.bind_eq_bind, Option.bind_eq_some_iff, Option.pure_def,
    Option.some.injEq] at changed
  obtain ⟨index, found, rfl⟩ := changed
  exact holds index found

/-- Only the assignment changes. -/
theorem updateTrail_ends {change : Trail → Option Trail}
    (holds : ∀ trail, change engine.trail = some trail → done () { engine with trail := trail }) :
    (updateTrail change).Ends engine done failed := by
  refine .update fun after changed => ?_
  simp only [Option.bind_eq_bind, Option.bind_eq_some_iff, Option.pure_def,
    Option.some.injEq] at changed
  obtain ⟨trail, found, rfl⟩ := changed
  exact holds trail found

end Updates

/-! ## What is not in the picture -/

theorem picture_eq_of_same (arena : after.arena = engine.arena) (trail : after.trail = engine.trail)
    (records : after.records = engine.records) (proof : after.proof = engine.proof) :
    after.picture = engine.picture := by
  unfold picture numVars
  rw [arena, trail, records, proof]

/-- The irredundant clauses are told by arena and trail. -/
theorem core_eq_of_same (arena : after.arena = engine.arena) (trail : after.trail = engine.trail) :
    after.core = engine.core := by
  unfold core
  rw [arena, trail]

/-- Counters and notices do not matter. -/
theorem Goes.of_same (inStep : engine.InStep) (arena : after.arena = engine.arena)
    (index : after.index = engine.index) (trail : after.trail = engine.trail)
    (records : after.records = engine.records) (proof : after.proof = engine.proof)
    (unsat : after.unsat = engine.unsat) (poisoned : after.poisoned = engine.poisoned)
    (settings : after.settings = engine.settings) (applied : after.applied = engine.applied) :
    engine.Goes scope after where
  inStep := inStep.of_same arena index trail applied
  retains _ := by
    refine .of_subset (trail ▸ .refl _) records (core_eq_of_same arena trail).ge ?_
    rw [picture_eq_of_same arena trail records proof]
    exact fun _ => id
  accounts := trail ▸ id
  orderly := trail ▸ id
  clean := index ▸ id
  unsat := unsat
  poisoned := poisoned
  settings := settings

theorem Leads.of_same [Realm] (sound : engine.Sound) (arena : after.arena = engine.arena)
    (index : after.index = engine.index) (trail : after.trail = engine.trail)
    (records : after.records = engine.records) (proof : after.proof = engine.proof)
    (unsat : after.unsat = engine.unsat) (poisoned : after.poisoned = engine.poisoned)
    (settings : after.settings = engine.settings) (applied : after.applied = engine.applied) :
    engine.Leads scope after := by
  refine .of_steps (.of_same sound.toInStep arena index trail records proof unsat poisoned settings
    applied) ?_ applied
  rw [picture_eq_of_same arena trail records proof]

theorem works_count [Realm] (change : Tally → Tally) : Works scope (count change) engine
    fun _ after => after = { engine with tally := change engine.tally } :=
  fun sound => .of_done rfl ⟨.of_same sound rfl rfl rfl rfl rfl rfl rfl rfl rfl, rfl⟩

/-- Of the trail only facts, order and marks matter. -/
theorem Leads.of_sameTrail [Realm] (sound : engine.Sound) {trail : Trail}
    (flags : engine.trail.SameFlags trail) (literals : trail.literals = engine.trail.literals)
    (levels : trail.levels = engine.trail.levels) (agrees : trail.Agrees)
    (facts : trail.facts = engine.trail.facts) :
    engine.Leads scope { engine with trail := trail } := by
  have same : Engine.picture { engine with trail := trail } = engine.picture := by
    unfold Engine.picture numVars
    rw [flags.numVars, flags.frozen, flags.removed, facts]
  have inStep : Engine.InStep { engine with trail := trail } := by
    refine ⟨?_, ⟨?_, ?_, ?_, agrees⟩, ?_⟩
    · change Filed (2 * trail.vars.size) engine.index engine.arena
      rw [flags.size]
      exact sound.toFiled
    · exact levels.trans sound.trail.atRoot
    · exact flags.size ▸ sound.trail.small
    · exact flags.size ▸ sound.trail.nonempty
    · change ∀ literal ∈ trail.literals.toList.drop engine.applied, literal ∈ trail.facts
      rw [literals, facts]
      exact sound.due
  refine .of_steps ⟨inStep, fun _ => ?_, flags.accounts, fun orderly => ?_, id, rfl, rfl, rfl⟩ ?_ rfl
  · refine .of_subset flags rfl ?_ ?_
    · unfold core
      dsimp only
      rw [facts]
    · rw [same]
      exact fun _ => id
  · change trail.facts = trail.literals.toList
    rw [facts, literals]
    exact orderly
  · rw [same]

/-- Clauses may get other marks. -/
theorem Leads.of_sameClauses [Realm] (sound : engine.Sound)
    (same : engine.arena.SameClauses after.arena) (counted : after.arena.Counted)
    (index : after.index = engine.index) (trail : after.trail = engine.trail)
    (records : after.records = engine.records) (proof : after.proof = engine.proof)
    (unsat : after.unsat = engine.unsat) (poisoned : after.poisoned = engine.poisoned)
    (settings : after.settings = engine.settings) (applied : after.applied = engine.applied) :
    engine.Leads scope after := by
  have picture : after.picture = { engine.picture with irredundant := after.arena.Irredundant } := by
    unfold Engine.picture numVars
    rw [same.contents, trail, records, proof]
  have inStep : after.InStep := by
    refine ⟨?_, trail ▸ sound.trail, ?_⟩
    · rw [index, trail]
      exact sound.toFiled.of_sameClauses same counted
    · rw [trail, applied]
      exact sound.due
  refine .of_steps ⟨inStep, fun _ => ?_, trail ▸ id, trail ▸ id, index ▸ id, unsat, poisoned,
    settings⟩ ?_ applied
  · refine .of_subset (trail ▸ .refl _) records ?_ fun values holds => ?_
    · rintro literals (⟨handle, clause, live, irredundant, rfl⟩ | atRoot)
      · obtain ⟨copy, liveAfter, literals, stays⟩ := same.live?_back live
        exact .inl ⟨handle, copy, liveAfter, stays irredundant, literals⟩
      · exact .inr (trail ▸ atRoot)
    · rw [picture]
      exact holds
  · rw [picture]
    exact .single (.recast _ fun pure => same.irredundant pure)

/-- Clauses got other marks, and those that were redundant are so still. -/
structure Remarks (engine after : Engine) : Prop where
  clauses : engine.arena.SameClauses after.arena
  redundant : ∀ handle clause copy, engine.arena.get? handle = some clause →
    after.arena.get? handle = some copy → copy.isRedundant = clause.isRedundant
  trail : after.trail = engine.trail
  records : after.records = engine.records

theorem Remarks.refl : Remarks engine engine where
  clauses := .refl _
  redundant _ _ _ found again := by
    rw [found, Option.some.injEq] at again
    rw [again]
  trail := rfl
  records := rfl

/-- A handle that is known gets its mark. -/
theorem markClause_of_mark {arena : Arena} (marked : engine.arena.mark handle change = some arena) :
    markClause handle change engine = .done () { engine with arena := arena } := by
  simp only [markClause, Run.modify_apply, marked]

/-- A handle that is not known is passed over. -/
theorem markClause_of_none (unknown : engine.arena.mark handle change = none) :
    markClause handle change engine = .done () engine := by
  simp only [markClause, Run.modify_apply, unknown]

/-- A mark that leaves a clause dead or alive is no step. -/
theorem works_markClause [Realm] (dead : ∀ flags, (change flags).dead = flags.dead)
    (redundant : ∀ flags, (change flags).redundant = flags.redundant) :
    Works scope (markClause handle change) engine fun _ after => engine.Remarks after := by
  intro sound
  cases marked : engine.arena.mark handle change with
  | none => exact .of_done (markClause_of_none marked) ⟨.refl sound, .refl⟩
  | some arena =>
    have same := Arena.sameClauses_mark dead redundant marked
    have counted := sound.counted.mark dead redundant marked
    refine .of_done (markClause_of_mark marked) ⟨.of_sameClauses sound same counted rfl rfl rfl rfl rfl rfl rfl rfl, same,
      ?_, rfl, rfl⟩
    exact fun other clause copy found again =>
      Arena.isRedundant_of_mark redundant marked found again

/-- A redundant clause may be made irredundant. -/
theorem works_makeIrredundant [Realm] (live : engine.arena.live? handle = some clause) :
    Works scope (makeIrredundant handle) engine fun _ after =>
      engine.arena.SameClauses after.arena ∧ after.trail = engine.trail ∧
        ∃ copy, after.arena.live? handle = some copy ∧ copy.literals = clause.literals ∧
          copy.isRedundant = false := by
  intro sound
  refine updateArena_ends fun arena promoted => ?_
  have same := Arena.sameClauses_makeIrredundant promoted
  have counted := sound.counted.makeIrredundant live promoted
  exact ⟨.of_sameClauses sound same counted rfl rfl rfl rfl rfl rfl rfl rfl, same, rfl,
    Arena.live?_makeIrredundant live promoted⟩

/-! ## Root literals -/

/-- A variable of the engine. -/
theorem present_of_lookup [Realm] (present : engine.picture.Present literal.var) :
    0 < literal.var ∧ literal.var < engine.trail.vars.size ∧
      (¬ engine.trail.Removed literal.var ∨ Realm.Lenient) := by
  obtain ⟨positive, small, kept, _⟩ := present
  have bound : literal.var ≤ engine.trail.vars.size - 1 := small
  exact ⟨positive, by omega, kept⟩

/-- Assigning an open literal logs a unit and pushes the literal. -/
theorem assignUnit_of_open (sound : engine.trail.Sound)
    (value : engine.trail.literalValue? literal = some none)
    (kept : ¬ engine.trail.Removed literal.var) :
    (assignUnit literal).Ends engine
      (fun _ after => ∃ trail tally changes, engine.trail.push literal 0 = some trail ∧
        after = { engine with
          proof := engine.proof.map fun steps => steps.push (.added [literal])
          trail := trail
          tally := tally
          changes := changes })
      (fun _ _ => False) := by
  have looked : literalValue literal engine = .done none engine := by
    simp only [literalValue, Run.read, value]
  unfold assignUnit
  refine .step looked (Run.Looks.read.bind fun flags found => ?_)
  have notRemoved : ¬ flags.isRemoved = true := fun removed => kept ⟨flags, found, removed⟩
  rw [if_neg notRemoved]
  refine .step rfl ?_
  refine .seq (.within (onTrail_apply _ _) ?_)
  refine (Trail.assignAtRoot_of_open sound value).imp (fun _ trail pushed => ?_)
    fun _ _ impossible => impossible
  exact .step rfl (.of_done rfl ⟨trail, _, _, pushed, rfl⟩)

/-- Assigning a removed variable is refused. -/
theorem assignUnit_of_removed (value : engine.trail.literalValue? literal = some none)
    (removed : engine.trail.Removed literal.var) :
    assignUnit literal engine =
      .failed (.invariantBroken ("assigning a removed var by " ++ literal.text)) engine := by
  obtain ⟨flags, found, isRemoved⟩ := removed
  simp only [assignUnit, literalValue, bind, Run.bind, Run.read, value, found, isRemoved, if_true]
  rfl

/-- The parts of an engine stay in step when an open literal is assigned. -/
theorem InStep.push (inStep : engine.InStep)
    (value : engine.trail.literalValue? literal = some none)
    (pushed : engine.trail.push literal 0 = some after.trail)
    (arena : after.arena = engine.arena) (index : after.index = engine.index)
    (applied : after.applied = engine.applied) : after.InStep := by
  obtain ⟨_, literals, levels, _⟩ := Trail.push_eq_some pushed
  have flags := Trail.sameFlags_push pushed
  have facts := Trail.facts_push value pushed
  refine ⟨?_, ⟨?_, ?_, ?_, inStep.trail.agrees.push pushed⟩, ?_⟩
  · rw [index, arena, flags.size]
    exact inStep.toFiled
  · rw [levels]
    exact inStep.trail.atRoot
  · rw [flags.size]
    exact inStep.trail.small
  · rw [flags.size]
    exact inStep.trail.nonempty
  · rw [literals, facts, applied, Array.toList_push]
    intro other member
    rcases List.mem_append.1 (List.drop_append ▸ member) with earlier | last
    · exact List.mem_append_left _ (inStep.due other earlier)
    · exact List.mem_append_right _ (List.mem_of_mem_drop last)

/-- An assigned literal is a step, if it follows. -/
theorem Leads.of_assigned [Realm] (sound : engine.Sound) (present : engine.picture.Present literal.var)
    (value : engine.trail.literalValue? literal = some none)
    (helpers : List (List Literal))
    (helped : ∀ literals ∈ helpers, OverVars literals ∧ Rup engine.picture.formula literals)
    (follows : Rup (engine.picture.formula ∪ {literals | literals ∈ helpers}) [literal])
    (pushed : engine.trail.push literal 0 = some after.trail)
    (log : after.picture.log = engine.picture.log.map
      (· ++ (helpers.map ProofStep.added ++ [ProofStep.added [literal]] ++
        helpers.map ProofStep.removed)))
    (arena : after.arena = engine.arena) (index : after.index = engine.index)
    (records : after.records = engine.records)
    (unsat : after.unsat = engine.unsat) (poisoned : after.poisoned = engine.poisoned)
    (settings : after.settings = engine.settings) (applied : after.applied = engine.applied) :
    engine.Leads scope after := by
  have flags := Trail.sameFlags_push pushed
  have facts := Trail.facts_push value pushed
  have step : Step scope engine.picture after.picture := by
    have picture : after.picture = { engine.picture.logged (helpers.map ProofStep.added ++
        [ProofStep.added [literal]] ++ helpers.map ProofStep.removed) with
          root := engine.picture.root ++ [literal] } := by
      unfold Picture.logged
      rw [← log]
      unfold Engine.picture numVars
      rw [facts, flags.numVars, flags.frozen, flags.removed, arena, records]
    rw [picture]
    exact .assign literal helpers present (Trail.open_of_none value) helped follows
  refine .of_steps ⟨sound.toInStep.push value pushed arena index applied, fun _ => ?_,
    flags.accounts, fun orderly => orderly.push value pushed, index ▸ id, unsat, poisoned,
    settings⟩ (.single step) applied
  refine .of_subset flags records ?_ fun values holds => step.holds sound.wellFormed holds
  unfold core
  rw [arena, facts]
  rintro literals (clause | ⟨unit, atRoot, rfl⟩)
  · exact .inl clause
  · exact .inr ⟨unit, List.mem_append_left _ atRoot, rfl⟩

/-- Propagation refutes a formula that has the complement of a literal at the root
and derives the literal. -/
theorem refuted_of_false
    (falsified : literal.complement ∈ engine.trail.facts)
    (follows : Rup engine.picture.formula [literal]) : Rup engine.picture.formula [] := by
  refine Conflicts.cut (fun other member => ?_) follows
  obtain ⟨unit, single, rfl⟩ := member
  rw [List.mem_singleton.1 single]
  refine .unit (Picture.mem_formula_of_root falsified) List.mem_cons_self ?_
  exact fun other member different => absurd (List.mem_singleton.1 member) different

/-- The engine after a literal was assigned. -/
structure Assigns (engine : Engine) (literal : Literal) (after : Engine) : Prop where
  arena : after.arena = engine.arena
  index : after.index = engine.index
  atRoot : literal ∈ after.trail.facts
  root : ∀ other ∈ after.trail.facts, other ∈ engine.trail.facts ∨ other = literal
  flags : engine.trail.SameFlags after.trail
  records : after.records = engine.records
  applied : after.applied = engine.applied

/-- A literal that follows becomes a root literal, unless it is one. -/
theorem works_assignUnit [Realm] (present : engine.picture.Present literal.var)
    (follows : Rup engine.picture.formula [literal]) :
    Works scope (assignUnit literal) engine fun _ after => Assigns engine literal after := by
  intro sound
  obtain ⟨positive, inside, kept⟩ := present_of_lookup present
  have looked : ∀ value, engine.trail.literalValue? literal = some value →
      literalValue literal engine = .done value engine := by
    intro value found
    simp only [literalValue, Run.read, found]
  have inTable : ∃ value, engine.trail.literalValue? literal = some value := by
    refine ⟨literal.valueUnder engine.trail.vars[literal.var].value, ?_⟩
    exact Trail.literalValue?_eq_some.2 ⟨_, Array.getElem?_eq_getElem inside, rfl⟩
  obtain ⟨value, found⟩ := inTable
  rcases value with _ | _ | _
  · by_cases removed : engine.trail.Removed literal.var
    · exact .of_failed (assignUnit_of_removed found removed)
        (.of_removed sound (kept.resolve_left fun kept => kept removed))
    refine (assignUnit_of_open sound.trail found removed).imp (fun _ after => ?_)
      fun _ _ impossible => impossible.elim
    rintro ⟨trail, tally, changes, pushed, rfl⟩
    have facts := Trail.facts_push found pushed
    refine ⟨.of_assigned sound present found [] (by simp) (by simpa using follows) pushed
      ?_ rfl rfl rfl rfl rfl rfl rfl, rfl, rfl, ?_, fun other member => ?_,
      Trail.sameFlags_push pushed, rfl, rfl⟩
    · simp [Engine.picture, Function.comp_def]
    · rw [facts]
      exact List.mem_append_right _ (List.mem_singleton_self literal)
    · rw [facts, List.mem_append, List.mem_singleton] at member
      exact member
  · have falsified := sound.trail.agrees.mem_of_false positive found
    unfold assignUnit
    refine .step (looked _ found) ?_
    exact .fail (.of_refuted sound rfl (refuted_of_false falsified follows))
  · have holds := sound.trail.agrees.mem_of_true positive found
    unfold assignUnit
    refine .step (looked _ found) ?_
    exact .pure ⟨.refl sound, rfl, rfl, holds, fun other member => .inl member, .refl _, rfl, rfl⟩

/-! ## Removing clauses -/

/-- The engine after the removal of a clause. -/
structure Removes (engine : Engine) (handle : Handle) (clause : Clause) (after : Engine) : Prop where
  inStep : after.InStep
  slots : after.arena.slots = engine.arena.slots.setIfInBounds handle.index
    { clause with flags := { clause.flags with dead := true } }
  epoch : after.arena.epoch = engine.arena.epoch
  contents : engine.arena.contents = clause.literals ::ₘ after.arena.contents
  trail : after.trail = engine.trail
  records : after.records = engine.records
  unsat : after.unsat = engine.unsat
  poisoned : after.poisoned = engine.poisoned
  settings : after.settings = engine.settings
  applied : after.applied = engine.applied

/-- Other clauses stay in their slots. -/
theorem Removes.get?_of_ne (removes : Removes engine handle clause after)
    (live : engine.arena.live? handle = some clause) (different : other ≠ handle) :
    after.arena.get? other = engine.arena.get? other :=
  Arena.get?_of_slots (Arena.live?_eq_some.1 live).1 removes.slots removes.epoch different

/-- The removed clause is dead. -/
theorem Removes.live?_self (removes : Removes engine handle clause after)
    (live : engine.arena.live? handle = some clause) : after.arena.live? handle = none := by
  obtain ⟨found, _⟩ := Arena.live?_eq_some.1 live
  unfold Arena.live?
  rw [Arena.get?_self_of_slots found removes.slots removes.epoch]
  rfl

/-- What is live after the removal was live before. -/
theorem Removes.live_of_live (removes : Removes engine handle clause after)
    (live : engine.arena.live? handle = some clause) {found : Clause}
    (liveOther : after.arena.live? other = some found) : engine.arena.live? other = some found := by
  by_cases same : other = handle
  · rw [same, removes.live?_self live] at liveOther
    cases liveOther
  · rw [Arena.live?_eq_some, removes.get?_of_ne live same] at liveOther
    exact Arena.live?_eq_some.2 liveOther

/-- Without redundant clauses there are none after a removal. -/
theorem Removes.irredundant (removes : Removes engine handle clause after)
    (live : engine.arena.live? handle = some clause) (pure : engine.arena.Irredundant) :
    after.arena.Irredundant := by
  obtain ⟨found, _⟩ := Arena.live?_eq_some.1 live
  obtain ⟨_, inSlot⟩ := Arena.get?_eq_some.1 found
  intro slot other foundOther liveOther
  rw [removes.slots] at foundOther
  rcases Arena.slot_of_set inSlot foundOther with ⟨_, rfl⟩ | ⟨_, unchanged⟩
  · cases liveOther
  · exact pure slot other unchanged liveOther

/-- Marking a clause dead, with lists that fit. -/
theorem removes_of_arena (inStep : engine.InStep) (live : engine.arena.live? handle = some clause)
    {arena : Arena} {index : Occurrences} (removed : engine.arena.remove handle = some arena)
    (filed : Filed (2 * engine.trail.vars.size) index arena) {proof : Option (Array ProofStep)}
    {changes : Nat} : Removes engine handle clause
      { engine with arena := arena, index := index, proof := proof, changes := changes } := by
  obtain ⟨found, alive⟩ := Arena.live?_eq_some.1 live
  obtain ⟨_, inSlot⟩ := Arena.get?_eq_some.1 found
  obtain ⟨slots, epoch, active⟩ := Arena.slots_remove found removed
  have contents : engine.arena.contents = clause.literals ::ₘ arena.contents := by
    have balance := Arena.contents_setSlot inSlot slots
    rw [Clause.content_of_live alive, Clause.content_of_dead rfl, add_zero] at balance
    rw [← balance, add_comm, Multiset.singleton_add]
  exact ⟨⟨filed, inStep.trail, inStep.due⟩, slots, epoch, contents, rfl, rfl, rfl, rfl, rfl, rfl⟩

/-- Removing a live clause takes it out of the arena and the index, and tells the
proof. -/
theorem removeClause_ends (inStep : engine.InStep)
    (live : engine.arena.live? handle = some clause) :
    (removeClause handle).Ends engine
      (fun _ after => Removes engine handle clause after ∧
        after.index.dirty = engine.index.dirty ∧
        after.picture.log = engine.picture.log.map (· ++ [ProofStep.removed clause.literals]))
      (fun _ _ => False) := by
  obtain ⟨found, _⟩ := Arena.live?_eq_some.1 live
  unfold removeClause
  refine looks_clause.bind fun removed lookedUp => ?_
  rw [found, Option.some.injEq] at lookedUp
  subst lookedUp
  refine .step rfl ?_
  refine .seq (updateIndex_ends fun index unlisted => ?_)
  refine .seq (updateArena_ends fun arena removed => ?_)
  obtain ⟨filed, dirty⟩ := inStep.toFiled.remove live unlisted removed
  refine .of_done rfl ⟨removes_of_arena inStep live removed filed, dirty, ?_⟩
  simp [Engine.picture, Function.comp_def]

/-- The picture after a removal. -/
theorem Removes.picture (removes : Removes engine handle clause after)
    {log : Option (List ProofStep)} (logged : after.picture.log = log) :
    after.picture = { engine.picture with
      clauses := after.arena.contents
      irredundant := after.arena.Irredundant
      log := log } := by
  rw [← logged]
  unfold Engine.picture numVars
  rw [removes.trail, removes.records]

/-- A root literal or another live clause is part of a clause. -/
def HasPart (engine : Engine) (handle : Handle) (clause : Clause) : Prop :=
  (∃ literal ∈ clause.literals, literal ∈ engine.trail.facts) ∨
    ∃ other smaller, other ≠ handle ∧ engine.arena.live? other = some smaller ∧
      smaller.literals ⊆ clause.literals

/-- If a clause is irredundant, so is its part. -/
def HasCorePart (engine : Engine) (handle : Handle) (clause : Clause) : Prop :=
  (∃ literal ∈ clause.literals, literal ∈ engine.trail.facts) ∨
    ∃ other smaller, other ≠ handle ∧ engine.arena.live? other = some smaller ∧
      smaller.literals ⊆ clause.literals ∧
      (clause.isRedundant = false → smaller.isRedundant = false)

/-- Other clauses stay live. -/
theorem Removes.live?_of_ne (removes : Removes engine handle clause after)
    (live : engine.arena.live? handle = some clause) {found : Clause} (different : other ≠ handle)
    (liveOther : engine.arena.live? other = some found) : after.arena.live? other = some found := by
  rw [Arena.live?_eq_some, removes.get?_of_ne live different]
  exact Arena.live?_eq_some.1 liveOther

/-- A part of a clause is still there after the clause was removed. -/
theorem Removes.contains (removes : Removes engine handle clause after)
    (live : engine.arena.live? handle = some clause) (part : engine.HasPart handle clause) :
    Picture.Contains { engine.picture with clauses := after.arena.contents } clause.literals := by
  rcases part with ⟨literal, member, atRoot⟩ | ⟨other, smaller, different, liveOther, small⟩
  · refine ⟨[literal], .inr ⟨literal, atRoot, rfl⟩, fun unit single => ?_⟩
    rw [List.mem_singleton.1 single]
    exact member
  · exact ⟨smaller.literals,
      .inl (Arena.contents_of_live (removes.live?_of_ne live different liveOther)), small⟩

/-- Other irredundant clauses stay irredundant. -/
theorem Removes.core_cases (removes : Removes engine handle clause after)
    (live : engine.arena.live? handle = some clause) (member : literals ∈ engine.core) :
    literals ∈ after.core ∨
      (clause.isRedundant = false ∧ clause.literals = literals) := by
  rcases member with ⟨other, found, liveOther, irredundant, rfl⟩ | atRoot
  · by_cases same : other = handle
    · subst same
      rw [live, Option.some.injEq] at liveOther
      subst liveOther
      exact .inr ⟨irredundant, rfl⟩
    · exact .inl (.inl ⟨other, found, removes.live?_of_ne live same liveOther, irredundant, rfl⟩)
  · exact .inl (.inr (removes.trail ▸ atRoot))

/-- A part of an irredundant clause stays irredundant. -/
theorem Removes.covers_core (removes : Removes engine handle clause after)
    (live : engine.arena.live? handle = some clause) (part : engine.HasCorePart handle clause) :
    Covers after.core engine.core := by
  intro literals member
  rcases removes.core_cases live member with kept | ⟨irredundant, rfl⟩
  · exact ⟨literals, kept, List.Subset.refl _⟩
  rcases part with ⟨literal, member, atRoot⟩ | ⟨other, smaller, different, liveOther, small, stays⟩
  · refine ⟨[literal], .inr ⟨literal, removes.trail ▸ atRoot, rfl⟩, fun unit single => ?_⟩
    rw [List.mem_singleton.1 single]
    exact member
  · exact ⟨smaller.literals, .inl ⟨other, smaller, removes.live?_of_ne live different liveOther,
      stays irredundant, rfl⟩, small⟩

/-- What a removal keeps besides the clauses. -/
theorem Removes.goes (removes : Removes engine handle clause after)
    (dirty : after.index.dirty = engine.index.dirty)
    (retains : scope ≠ .removal → engine.Retains after) : engine.Goes scope after where
  inStep := removes.inStep
  retains := retains
  accounts := removes.trail ▸ id
  orderly := removes.trail ▸ id
  clean := dirty ▸ id
  unsat := removes.unsat
  poisoned := removes.poisoned
  settings := removes.settings

/-- A clause of which a part stays may be removed. -/
theorem works_removeClause [Realm] (live : engine.arena.live? handle = some clause)
    (part : engine.HasPart handle clause)
    (corePart : scope ≠ .removal → engine.HasCorePart handle clause) :
    Works scope (removeClause handle) engine fun _ after => Removes engine handle clause after := by
  refine .of_ends fun sound => ?_
  refine (removeClause_ends sound.toInStep live).imp (fun _ after => ?_)
    fun _ _ impossible => impossible.elim
  rintro ⟨removes, dirty, log⟩
  have steps : Steps scope engine.picture after.picture := by
    rw [removes.picture log]
    have dropped : Step scope engine.picture { engine.picture with
        clauses := after.arena.contents, pending := clause.literals ::ₘ 0 } :=
      .drop clause.literals after.arena.contents removes.contents (removes.contains live part)
    exact .tail (.tail (.single dropped) (.report clause.literals 0 rfl))
      (.recast _ (removes.irredundant live))
  refine ⟨.of_steps (removes.goes dirty fun narrow => ?_) steps removes.applied, removes⟩
  exact .of_covers (removes.trail ▸ .refl _) removes.records
    (removes.covers_core live (corePart narrow)) fun _ => Steps.holds steps sound.wellFormed

/-- A clause with a root literal may be removed. -/
theorem works_removeClause_of_root [Realm] (live : engine.arena.live? handle = some clause)
    (inside : literal ∈ clause.literals) (atRoot : literal ∈ engine.trail.facts) :
    Works scope (removeClause handle) engine fun _ after => Removes engine handle clause after :=
  works_removeClause live (.inl ⟨literal, inside, atRoot⟩) fun _ => .inl ⟨literal, inside, atRoot⟩

/-! ## Shortening clauses -/

/-- What holds of the slots of other clauses after a clause was changed. -/
def KeepsOthers (engine : Engine) (handle : Handle) (after : Engine) : Prop :=
  ∀ other, other ≠ handle → after.arena.get? other = engine.arena.get? other

/-- The engine after a clause lost a literal. -/
structure Strengthens (engine : Engine) (handle : Handle) (clause : Clause) (literal : Literal)
    (after : Engine) : Prop where
  others : KeepsOthers engine handle after
  long : 3 ≤ clause.literals.length → ∃ shorter, after.arena.live? handle = some shorter ∧
    shorter.literals = clause.literals.erase literal
  left : ∀ shorter, after.arena.live? handle = some shorter →
    shorter.literals = clause.literals.erase literal
  applied : after.applied = engine.applied

/-- The engine after a clause of at least three literals lost one. -/
structure Shortens (engine : Engine) (handle : Handle) (clause : Clause) (literal : Literal)
    (after : Engine) : Prop where
  inStep : after.InStep
  live : ∃ shorter, after.arena.live? handle = some shorter ∧
    shorter.literals = clause.literals.erase literal ∧
    shorter.isRedundant = clause.isRedundant
  others : KeepsOthers engine handle after
  contents : ∃ rest, engine.arena.contents = clause.literals ::ₘ rest ∧
    after.arena.contents = clause.literals.erase literal ::ₘ rest
  irredundant : engine.arena.Irredundant → after.arena.Irredundant
  log : after.picture.log = engine.picture.log.map
    (· ++ [.added (clause.literals.erase literal), .removed clause.literals])
  dirty : after.index.dirty = engine.index.dirty
  trail : after.trail = engine.trail
  records : after.records = engine.records
  unsat : after.unsat = engine.unsat
  poisoned : after.poisoned = engine.poisoned
  settings : after.settings = engine.settings
  applied : after.applied = engine.applied

/-- A long clause loses a literal in the arena and in the index. -/
theorem shorten_ends (inStep : engine.InStep) (live : engine.arena.live? handle = some clause)
    (inside : literal ∈ clause.literals) (long : 3 ≤ clause.literals.length) :
    (do
      prove (.added (clause.literals.filter fun l => l != literal))
      prove (.removed clause.literals)
      updateArena fun arena => (arena.strengthen handle literal).map Prod.snd
      updateIndex fun index => index.removeFrom handle literal
      count fun tally => { tally with strengthened := tally.strengthened + 1 }
      touch).Ends engine (fun _ after => Shortens engine handle clause literal after)
      fun _ _ => False := by
  obtain ⟨found, alive⟩ := Arena.live?_eq_some.1 live
  obtain ⟨current, inSlot⟩ := Arena.get?_eq_some.1 found
  refine .step rfl (.step rfl ?_)
  refine .seq (updateArena_ends fun arena changed => ?_)
  obtain ⟨⟨length, shrunk⟩, strengthened, rfl⟩ := Option.map_eq_some_iff.1 changed
  refine .seq (updateIndex_ends fun index unlisted => ?_)
  refine .step rfl (.of_done rfl ?_)
  obtain ⟨shorter, shorterLiterals, shorterDead, shorterRedundant, slots, epoch, active⟩ :=
    Arena.slots_strengthen found inside strengthened
  obtain ⟨filed, dirty⟩ := inStep.toFiled.strengthen live inside long strengthened unlisted
  constructor
  case inStep => exact ⟨filed, inStep.trail, inStep.due⟩
  case live =>
    exact ⟨shorter, Arena.live?_eq_some.2 ⟨Arena.get?_self_of_slots found slots epoch,
      shorterDead.trans alive⟩, shorterLiterals, shorterRedundant⟩
  case others => exact fun other different => Arena.get?_of_slots found slots epoch different
  case contents =>
    obtain ⟨rest, split⟩ := Multiset.exists_cons_of_mem (Arena.contents_of_live live)
    refine ⟨rest, split, ?_⟩
    have balance := Arena.contents_setSlot inSlot slots
    rw [Clause.content_of_live alive, Clause.content_of_live (shorterDead.trans alive),
      shorterLiterals, split, Multiset.cons_add, add_comm, Multiset.singleton_add,
      Multiset.cons_inj_right, add_comm, Multiset.singleton_add] at balance
    exact balance
  case irredundant =>
    intro pure slot other foundOther liveOther
    change shrunk.slots[slot]? = some other at foundOther
    rw [slots] at foundOther
    rcases Arena.slot_of_set inSlot foundOther with ⟨_, rfl⟩ | ⟨_, unchanged⟩
    · exact shorterRedundant.trans (pure _ clause inSlot alive)
    · exact pure slot other unchanged liveOther
  case log =>
    have filtered : clause.literals.filter (fun l => l != literal) = clause.literals.erase literal :=
      ((Literal.nodup_of_pairwise_lt clause.sorted).erase_eq_filter literal).symm
    simp [Engine.picture, filtered, Function.comp_def]
  case dirty => exact dirty
  all_goals rfl

/-- A clause of at least three literals loses a literal. -/
theorem works_shorten [Realm] (live : engine.arena.live? handle = some clause)
    (inside : literal ∈ clause.literals) (long : 3 ≤ clause.literals.length)
    (follows : Rup engine.picture.formula (clause.literals.erase literal)) :
    Works scope (do
      prove (.added (clause.literals.filter fun l => l != literal))
      prove (.removed clause.literals)
      updateArena fun arena => (arena.strengthen handle literal).map Prod.snd
      updateIndex fun index => index.removeFrom handle literal
      count fun tally => { tally with strengthened := tally.strengthened + 1 }
      touch) engine
      fun _ after => Strengthens engine handle clause literal after := by
  refine .of_ends fun sound => ?_
  refine (shorten_ends sound.toInStep live inside long).imp (fun _ after shortens => ?_)
    fun _ _ impossible => impossible.elim
  obtain ⟨shorter, liveShorter, shorterLiterals, shorterRedundant⟩ := shortens.live
  obtain ⟨rest, split, contents⟩ := shortens.contents
  have admits := sound.wellFormed.admits _ (Arena.contents_of_live live)
  have shorterAdmits : engine.picture.Admits (clause.literals.erase literal) := by
    refine admits.of_sublist List.erase_sublist ?_
    rw [List.length_erase_of_mem inside]
    omega
  have steps : Steps scope engine.picture after.picture := by
    have picture : after.picture = { engine.picture.logged
        [.added (clause.literals.erase literal), .removed clause.literals] with
          clauses := clause.literals.erase literal ::ₘ rest
          irredundant := after.arena.Irredundant } := by
      unfold Picture.logged
      rw [← shortens.log, ← contents]
      unfold Engine.picture numVars
      rw [shortens.trail, shortens.records]
    rw [picture]
    exact (Steps.shorten split shorterAdmits List.erase_subset follows).tail
      (.recast _ shortens.irredundant)
  refine ⟨.of_steps ⟨shortens.inStep, fun _ => ?_, shortens.trail ▸ id, shortens.trail ▸ id,
    shortens.dirty ▸ id, shortens.unsat, shortens.poisoned, shortens.settings⟩ steps
    shortens.applied, shortens.others, fun _ => ⟨shorter, liveShorter, shorterLiterals⟩,
    fun found liveFound => ?_, shortens.applied⟩
  · refine .of_covers (shortens.trail ▸ .refl _) shortens.records ?_
      fun _ => Steps.holds steps sound.wellFormed
    rintro literals (⟨other, old, liveOther, irredundant, rfl⟩ | atRoot)
    · by_cases same : other = handle
      · subst same
        obtain rfl := Option.some.inj (live.symm.trans liveOther)
        refine ⟨shorter.literals, .inl ⟨other, shorter, liveShorter,
          shorterRedundant.trans irredundant, rfl⟩, ?_⟩
        rw [shorterLiterals]
        exact List.erase_subset
      · refine ⟨old.literals, .inl ⟨other, old, ?_, irredundant, rfl⟩, List.Subset.refl _⟩
        rw [Arena.live?_eq_some] at liveOther ⊢
        rwa [shortens.others other same]
    · exact ⟨literals, .inr (shortens.trail ▸ atRoot), List.Subset.refl _⟩
  · rw [← Option.some.inj (liveShorter.symm.trans liveFound)]
    exact shorterLiterals

theorem Removes.keepsOthers (removes : Removes engine handle clause after)
    (live : engine.arena.live? handle = some clause) : KeepsOthers engine handle after :=
  fun _ different => removes.get?_of_ne live different

/-- A clause loses a literal without which it follows still. -/
theorem works_strengthen [Realm] (live : engine.arena.live? handle = some clause)
    (inside : literal ∈ clause.literals)
    (follows : Rup engine.picture.formula (clause.literals.erase literal)) :
    Works scope (strengthen handle literal) engine fun _ after =>
      Strengthens engine handle clause literal after := by
  refine .of_sound fun (sound : engine.Sound) => ?_
  obtain ⟨found, _⟩ := Arena.live?_eq_some.1 live
  have admits := sound.wellFormed.admits _ (Arena.contents_of_live live)
  unfold strengthen
  refine .look looks_clause fun old lookedUp => ?_
  rw [found, Option.some.injEq] at lookedUp
  subst lookedUp
  split
  next first second pair =>
    -- The other literal of a pair becomes a root literal, and the pair goes.
    rw [pair] at inside follows
    have other : [first, second].erase literal = [if first = literal then second else first] := by
      by_cases same : first = literal
      · simp [same]
      · have isSecond : literal = second := by
          rcases List.mem_cons.1 inside with isFirst | later
          · exact absurd isFirst.symm same
          · exact List.mem_singleton.1 later
        subst isSecond
        rw [List.erase_cons_tail (by simpa using same), List.erase_cons_head, if_neg same]
    rw [other] at follows
    have member : (if first = literal then second else first) ∈ clause.literals := by
      rw [pair]
      split <;> simp
    refine (works_assignUnit (admits.present _ member) follows).bind fun _ middle _ assigns => ?_
    have liveAfter : middle.arena.live? handle = some clause := by rw [assigns.arena, live]
    refine (works_removeClause_of_root liveAfter member assigns.atRoot).imp
      fun _ after removes => ⟨?_, fun long => ?_, fun shorter live => ?_, ?_⟩
    · intro different distinct
      rw [removes.keepsOthers liveAfter different distinct, assigns.arena]
    · rw [pair] at long
      exact absurd long (by simp)
    · rw [removes.live?_self liveAfter] at live
      cases live
    · exact removes.applied.trans assigns.applied
  next noPair =>
    have long : 3 ≤ clause.literals.length := by
      have two := admits.two
      by_contra short
      have length : clause.literals.length = 2 := by omega
      obtain ⟨first, second, pair⟩ := List.length_eq_two.1 length
      exact noPair first second pair
    exact works_shorten live inside long follows

/-! ## Adding clauses -/

/-- The engine after a clause was put into the arena and the index. -/
structure Inserts (engine : Engine) (literals : List Literal) (redundant : Bool)
    (after : Engine) : Prop where
  inStep : after.InStep
  slots : after.arena.slots = engine.arena.slots.push (Clause.ofLiterals literals redundant)
  epoch : after.arena.epoch = engine.arena.epoch
  contents : after.arena.contents = literals ::ₘ engine.arena.contents
  dirty : after.index.dirty = engine.index.dirty
  trail : after.trail = engine.trail
  records : after.records = engine.records
  proof : after.proof = engine.proof
  unsat : after.unsat = engine.unsat
  poisoned : after.poisoned = engine.poisoned
  settings : after.settings = engine.settings
  applied : after.applied = engine.applied

/-- An irredundant clause makes none redundant. -/
theorem Inserts.irredundant (inserts : Inserts engine literals redundant after)
    (pure : engine.arena.Irredundant) (own : redundant = false) : after.arena.Irredundant := by
  intro slot other found live
  rw [inserts.slots, Array.getElem?_push] at found
  split at found
  · rw [← Option.some.inj found]
    exact own
  · exact pure slot other found live

/-- A clause is put into the arena and the index. -/
theorem insertClause_files {room : Nat} {next : Handle → Run Engine α} {done : α → Engine → Prop}
    {failed : Error → Engine → Prop} (filed : Filed room engine.index engine.arena)
    (rest : ∀ index, Filed room index (engine.arena.insert literals redundant).2 →
      index.dirty = engine.index.dirty →
      (next (engine.arena.handleAt engine.arena.slots.size)).Ends
        { engine with arena := (engine.arena.insert literals redundant).2, index := index }
        done failed) :
    (do
      let handle ← insertClause literals redundant
      let stored ← Engine.clause handle
      updateIndex fun index => index.add handle stored.literals
      next handle).Ends engine done failed := by
  by_cases space : engine.arena.slots.size + 1 < UInt32.size
  swap
  · have ended : insertClause literals redundant engine = .stuck .outOfSpace := by
      simp only [insertClause, if_neg space]
    exact .of_stuck (Run.bind_of_stuck ended)
  let arena := (engine.arena.insert literals redundant).2
  have ended : insertClause literals redundant engine =
      .done (engine.arena.handleAt engine.arena.slots.size) { engine with arena := arena } := by
    simp only [insertClause, if_pos space]
    rfl
  have slots : arena.slots = engine.arena.slots.push (Clause.ofLiterals literals redundant) := rfl
  have place : (engine.arena.handleAt engine.arena.slots.size).index = engine.arena.slots.size :=
    Arena.index_handleAt (by omega)
  refine .step ended (looks_clause.bind fun stored lookedUp => ?_)
  have isNew : stored = Clause.ofLiterals literals redundant := by
    have inSlot := (Arena.get?_eq_some.1 lookedUp).2
    change arena.slots[_]? = some stored at inSlot
    rw [slots, place, Array.getElem?_push_size, Option.some.injEq] at inSlot
    exact inSlot.symm
  subst isNew
  refine .seq (updateIndex_ends fun index added => ?_)
  obtain ⟨filedAfter, dirty⟩ := filed.insert space added
  exact rest index filedAfter dirty

/-- Storing a clause that is ascending already. -/
theorem insertClause_seq {next : Handle → Run Engine α} {done : α → Engine → Prop}
    {failed : Error → Engine → Prop} (inStep : engine.InStep) (sorted : literals.Pairwise (· < ·))
    (rest : ∀ after, Inserts engine literals redundant after →
      (next (engine.arena.handleAt engine.arena.slots.size)).Ends after done failed) :
    (do
      let handle ← insertClause literals redundant
      let stored ← Engine.clause handle
      updateIndex fun index => index.add handle stored.literals
      next handle).Ends engine done failed := by
  refine insertClause_files inStep.toFiled fun index filed dirty => rest _ ?_
  have contents : (engine.arena.insert literals redundant).2.contents =
      literals ::ₘ engine.arena.contents := by
    unfold Arena.contents
    rw [Arena.insert, Array.toList_push, List.map_append, List.sum_append, List.map_singleton,
      List.sum_singleton, Clause.content_of_live rfl, add_comm, Multiset.singleton_add]
    congr 1
    exact sortedLiterals_of_pairwise sorted
  exact ⟨⟨filed, inStep.trail, inStep.due⟩, rfl, rfl, contents, dirty, rfl, rfl, rfl, rfl, rfl, rfl,
    rfl⟩

/-! ## Dropping all clauses -/

/-- The engine after clauses were dropped without a word to the proof. -/
structure Releases (engine : Engine) (handles : List Handle) (after : Engine) : Prop where
  inStep : after.InStep
  left : ∀ handle clause, after.arena.live? handle = some clause →
    engine.arena.live? handle = some clause ∧ handle ∉ handles
  slots : after.arena.slots.size = engine.arena.slots.size
  dirty : after.index.dirty = engine.index.dirty
  trail : after.trail = engine.trail
  records : after.records = engine.records
  proof : after.proof = engine.proof
  unsat : after.unsat = engine.unsat
  poisoned : after.poisoned = engine.poisoned
  settings : after.settings = engine.settings
  applied : after.applied = engine.applied

/-- A live clause is released, and no other. -/
theorem releaseClause_ends (inStep : engine.InStep)
    (live : engine.arena.live? handle = some clause) :
    (releaseClause handle).Ends engine (fun _ after => Releases engine [handle] after ∧
      ∀ other, other ≠ handle → after.arena.live? other = engine.arena.live? other)
      fun _ _ => False := by
  obtain ⟨found, _⟩ := Arena.live?_eq_some.1 live
  unfold releaseClause
  refine looks_clause.bind fun released lookedUp => ?_
  rw [found, Option.some.injEq] at lookedUp
  subst lookedUp
  refine .seq (updateIndex_ends fun index unlisted => ?_)
  refine updateArena_ends fun arena removed => ?_
  obtain ⟨filed, dirty⟩ := inStep.toFiled.remove live unlisted removed
  have removes : Removes engine handle clause { engine with index := index, arena := arena } :=
    removes_of_arena inStep live removed filed
  refine ⟨⟨removes.inStep, fun other found liveOther => ?_, ?_, dirty, rfl, rfl, rfl, rfl, rfl, rfl,
    rfl⟩, fun other different => ?_⟩
  · refine ⟨removes.live_of_live live liveOther, fun member => ?_⟩
    rw [List.mem_singleton.1 member, removes.live?_self live] at liveOther
    cases liveOther
  · rw [removes.slots, Array.size_setIfInBounds]
  · unfold Arena.live?
    rw [removes.get?_of_ne live different]

/-- Different live clauses are released one after the other. -/
theorem releaseAll_ends {handles : List Handle} (inStep : engine.InStep) (nodup : handles.Nodup)
    (live : ∀ handle ∈ handles, ∃ clause, engine.arena.live? handle = some clause) :
    (handles.forM releaseClause).Ends engine (fun _ after => Releases engine handles after)
      fun _ _ => False := by
  induction handles generalizing engine with
  | nil =>
    exact .pure ⟨inStep, fun _ _ live => ⟨live, List.not_mem_nil⟩, rfl, rfl, rfl, rfl, rfl, rfl, rfl,
      rfl, rfl⟩
  | cons handle rest ih =>
    obtain ⟨absent, nodupRest⟩ := List.nodup_cons.1 nodup
    obtain ⟨⟨clause, liveFirst⟩, liveRest⟩ := List.forall_mem_cons.1 live
    refine (releaseClause_ends inStep liveFirst).bind fun _ middle ⟨first, others⟩ => ?_
    refine (ih first.inStep nodupRest fun other member => ?_).imp (fun _ after second => ?_)
      fun _ _ impossible => impossible
    · rw [others other fun same => absent (same ▸ member)]
      exact liveRest other member
    · refine ⟨second.inStep, fun other found liveOther => ?_, second.slots.trans first.slots,
        second.dirty.trans first.dirty, second.trail.trans first.trail,
        second.records.trans first.records, second.proof.trans first.proof,
        second.unsat.trans first.unsat, second.poisoned.trans first.poisoned,
        second.settings.trans first.settings, second.applied.trans first.applied⟩
      obtain ⟨liveMiddle, notRest⟩ := second.left other found liveOther
      obtain ⟨liveBefore, notFirst⟩ := first.left other found liveMiddle
      refine ⟨liveBefore, fun member => ?_⟩
      rcases List.mem_cons.1 member with same | later
      · exact notFirst (List.mem_singleton.2 same)
      · exact notRest later

/-- Afterwards no clause is live. -/
theorem releaseClauses_ends (inStep : engine.InStep) :
    releaseClauses.Ends engine (fun _ after => Releases engine engine.arena.handles after ∧
      after.arena.contents = 0) fun _ _ => False := by
  unfold releaseClauses
  refine looks_look.bind fun handles same => ?_
  subst same
  refine (releaseAll_ends inStep (Arena.nodup_handles inStep.space.le)
    fun handle member => (Arena.mem_handles inStep.space.le).1 member).bind fun _ after releases => ?_
  refine .of_done rfl ⟨⟨releases.inStep.of_same rfl rfl rfl rfl, releases.left, releases.slots,
    releases.dirty, releases.trail, releases.records, releases.proof, releases.unsat,
    releases.poisoned, releases.settings, releases.applied⟩, ?_⟩
  refine Multiset.eq_zero_iff_forall_notMem.2 fun literals stored => ?_
  obtain ⟨slot, clause, found, alive, rfl⟩ := Arena.mem_contents.1 stored
  have live := Arena.live?_handleAt releases.inStep.space.le found alive
  obtain ⟨before, absent⟩ := releases.left _ clause live
  exact absent ((Arena.mem_handles inStep.space.le).2 ⟨clause, before⟩)

end Engine

end CnfSimplifier
