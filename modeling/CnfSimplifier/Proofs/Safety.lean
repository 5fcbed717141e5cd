import CnfSimplifier.Proofs.Conclusion

/-!
# Runs that do not get stuck

A statement about how a run ends says nothing of a run that is stuck. That a run is
not is a statement of its own: it gets stuck for admitted reasons only. Where nothing
is admitted, and the run cannot fail either, it is done.

The engine looks into its tables for handles and literals that live clauses give it,
and they have places there as long as the parts of the engine are in step. So the
statements about how the parts of a sequence end show that its later parts are safe.
-/
namespace CnfSimplifier

namespace Run

variable {σ τ α β : Type} {admitted : Breakdown → Prop} {body : Run σ α} {state : σ}

/-- What is in a table is read. -/
theorem read_of_eq_some {look : σ → Option α} {value : α} (found : look state = some value) :
    Run.read look state = .done value state := by
  simp only [Run.read, found]

theorem access_of_eq_some {found : Option α} {value : α} (isFound : found = some value) :
    (Run.access found : Run σ α) state = .done value state := by
  rw [isFound]
  rfl

/-- A change that the tables admit is made. -/
theorem update_of_eq_some {change : σ → Option σ} {after : σ} (changed : change state = some after) :
    Run.update change state = .done () after := by
  simp only [Run.update, changed]

/-- A run gets stuck for admitted reasons only. -/
def Safe (admitted : Breakdown → Prop) (body : Run σ α) (state : σ) : Prop :=
  ∀ why, body state = .stuck why → admitted why

namespace Safe

variable {value : α} {after : σ} {next : α → Run σ β}

theorem of_done (ended : body state = .done value after) : body.Safe admitted state := by
  intro why stuck
  rw [ended] at stuck
  cases stuck

theorem of_failed {cause : Error} (ended : body state = .failed cause after) :
    body.Safe admitted state := by
  intro why stuck
  rw [ended] at stuck
  cases stuck

theorem pure : (pure value : Run σ α).Safe admitted state := of_done rfl

theorem fail {cause : Error} : (Run.fail cause : Run σ α).Safe admitted state := of_failed rfl

theorem stop {why : Breakdown} (isAdmitted : admitted why) :
    (Run.stop why : Run σ α).Safe admitted state := by
  intro _ stuck
  cases stuck
  exact isAdmitted

theorem read {look : σ → Option α} (found : look state = some value) :
    (Run.read look).Safe admitted state :=
  of_done (read_of_eq_some found)

theorem access {found : Option α} (isFound : found = some value) :
    (Run.access found : Run σ α).Safe admitted state :=
  of_done (access_of_eq_some isFound)

theorem update {change : σ → Option σ} (changed : change state = some after) :
    (Run.update change).Safe admitted state :=
  of_done (update_of_eq_some changed)

/-- A sequence is safe if its second part is, wherever the first one may end. -/
theorem bind {done : α → σ → Prop} {failed : Error → σ → Prop} (safe : body.Safe admitted state)
    (ends : body.Ends state done failed)
    (rest : ∀ value after, done value after → (next value).Safe admitted after) :
    (body >>= next).Safe admitted state := by
  intro why stuck
  rw [bind_apply] at stuck
  cases ended : body state with
  | done value after =>
    rw [ended] at stuck
    exact rest value after (ends.done_of_eq ended) why stuck
  | failed cause after =>
    rw [ended] at stuck
    cases stuck
  | stuck reason =>
    rw [ended] at stuck
    cases stuck
    exact safe _ ended

/-- After a look the state is the same. -/
theorem look {found : α → Prop} (safe : body.Safe admitted state) (looks : body.Looks state found)
    (rest : ∀ value, found value → (next value).Safe admitted state) :
    (body >>= next).Safe admitted state := by
  refine safe.bind looks ?_
  rintro value _ ⟨rfl, holds⟩
  exact rest value holds

/-- A part that is known to be done hands its value and state on. -/
theorem step (ended : body state = .done value after) (rest : (next value).Safe admitted after) :
    (body >>= next).Safe admitted state := by
  intro why stuck
  rw [bind_of_done ended] at stuck
  exact rest why stuck

theorem attempt (safe : body.Safe admitted state) : body.attempt.Safe admitted state := by
  intro why stuck
  unfold Run.attempt at stuck
  cases ended : body state with
  | done value after =>
    rw [ended] at stuck
    cases stuck
  | failed cause after =>
    rw [ended] at stuck
    cases stuck
  | stuck reason =>
    rw [ended] at stuck
    cases stuck
    exact safe _ ended

/-- Work on a part of a state is as safe as it is on the part alone. -/
theorem within {whole : Run τ α} {outer : τ} {put : σ → τ}
    (same : whole outer = (body state).mapState put) (safe : body.Safe admitted state) :
    whole.Safe admitted outer := by
  intro why stuck
  rw [same] at stuck
  cases ended : body state with
  | done value after =>
    rw [ended] at stuck
    cases stuck
  | failed cause after =>
    rw [ended] at stuck
    cases stuck
  | stuck reason =>
    rw [ended] at stuck
    cases stuck
    exact safe _ ended

/-- A safe operation of the engine is safe on a tool and the engine. -/
theorem lift {body : Run Engine α} {state : τ × Engine} (safe : body.Safe admitted state.2) :
    (liftM body : Run (τ × Engine) α).Safe admitted state := by
  have same : (liftM body : Run (τ × Engine) α) state =
      (body state.2).mapState fun engine => (state.1, engine) := rfl
  exact within same safe

/-- A run that is safe without exception and cannot fail is done. -/
theorem returns {done : α → σ → Prop} {failed : Error → σ → Prop}
    (safe : body.Safe (fun _ => False) state) (ends : body.Ends state done failed)
    (noFailure : ∀ cause after, ¬ failed cause after) : body.Returns state done := by
  cases ended : body state with
  | done value after => exact ⟨value, after, ended, ends.done_of_eq ended⟩
  | failed cause after => exact absurd (ends.failed_of_eq ended) (noFailure cause after)
  | stuck why => exact (safe why ended).elim

end Safe

/-- A run comes to an end, and it is said how. -/
structure Finishes (body : Run σ α) (state : σ) (done : α → σ → Prop)
    (failed : Error → σ → Prop) : Prop where
  ends : body.Ends state done failed
  safe : body.Safe (fun _ => False) state

namespace Finishes

variable {done : α → σ → Prop} {failed : Error → σ → Prop}

theorem pure {value : α} (holds : done value state) :
    (pure value : Run σ α).Finishes state done failed := ⟨.pure holds, .pure⟩

theorem fail {cause : Error} (holds : failed cause state) :
    (Run.fail cause : Run σ α).Finishes state done failed := ⟨.fail holds, .fail⟩

theorem of_returns (returns : body.Returns state done) : body.Finishes state done failed := by
  obtain ⟨value, after, ended, holds⟩ := returns
  exact ⟨.of_done ended holds, .of_done ended⟩

theorem bind {next : α → Run σ β} {last : β → σ → Prop} (first : body.Finishes state done failed)
    (rest : ∀ value after, done value after → (next value).Finishes after last failed) :
    (body >>= next).Finishes state last failed where
  ends := first.ends.bind fun value after holds => (rest value after holds).ends
  safe := first.safe.bind first.ends fun value after holds => (rest value after holds).safe

/-- A part that is known to be done hands its value and state on. -/
theorem step {next : α → Run σ β} {last : β → σ → Prop} {value : α} {after : σ}
    (ended : body state = .done value after) (rest : (next value).Finishes after last failed) :
    (body >>= next).Finishes state last failed :=
  ⟨.step ended rest.ends, .step ended rest.safe⟩

theorem imp {done' : α → σ → Prop} {failed' : Error → σ → Prop}
    (finishes : body.Finishes state done failed)
    (whenDone : ∀ value after, done value after → done' value after)
    (whenFailed : ∀ cause after, failed cause after → failed' cause after) :
    body.Finishes state done' failed' :=
  ⟨finishes.ends.imp whenDone whenFailed, finishes.safe⟩

/-- What is said of a run in any case holds of one that comes to an end. -/
theorem and_ends {further : α → σ → Prop} {otherwise : Error → σ → Prop}
    (finishes : body.Finishes state done failed) (ends : body.Ends state further otherwise) :
    body.Finishes state (fun value after => done value after ∧ further value after)
      fun cause after => failed cause after ∧ otherwise cause after :=
  ⟨finishes.ends.and ends, finishes.safe⟩

/-- An attempt at a run that comes to an end is done. -/
theorem attempt (finishes : body.Finishes state done failed) :
    body.attempt.Returns state fun result after =>
      match result with
      | .ok value => done value after
      | .error cause => failed cause after := by
  unfold Run.attempt
  cases ended : body state with
  | done value after => exact ⟨.ok value, after, by simp only [ended], finishes.ends.done_of_eq ended⟩
  | failed cause after =>
    exact ⟨.error cause, after, by simp only [ended], finishes.ends.failed_of_eq ended⟩
  | stuck why => exact (finishes.safe why ended).elim

end Finishes

/-- An operation of the engine that is done is done on a tool and the engine. -/
theorem lift_of_done {body : Run Engine α} {first : τ} {engine after : Engine} {value : α}
    (ended : body engine = .done value after) :
    (liftM body : Run (τ × Engine) α) (first, engine) = .done value (first, after) := by
  change Run.onSecond body (first, engine) = _
  simp only [Run.onSecond, ended]

/-- An operation of the engine comes to its end on a tool and the engine. -/
theorem Finishes.lift {body : Run Engine α} {state : τ × Engine} {done : α → Engine → Prop}
    {failed : Error → Engine → Prop} (finishes : body.Finishes state.2 done failed) :
    (liftM body : Run (τ × Engine) α).Finishes state
      (fun value after => after.1 = state.1 ∧ done value after.2)
      fun cause after => failed cause after.2 :=
  ⟨Ends.lift finishes.ends, finishes.safe.lift⟩

/-- An operation of the engine returns on a tool and the engine. -/
theorem Returns.lift {body : Run Engine α} {state : τ × Engine} {done : α → Engine → Prop}
    (returns : body.Returns state.2 done) :
    (liftM body : Run (τ × Engine) α).Returns state
      fun value after => after.1 = state.1 ∧ done value after.2 := by
  obtain ⟨value, after, ended, holds⟩ := returns
  exact ⟨value, (state.1, after), lift_of_done ended, rfl, holds⟩

end Run

/-- After a part that works the engine is sound again. -/
theorem Works.safe_bind [Realm] {σ α β : Type} [HasEngine σ] {scope : Scope}
    {admitted : Breakdown → Prop} {body : Run σ α} {next : α → Run σ β} {state : σ}
    {post : α → σ → Prop} (works : Works scope body state post) (sound : (engineOf state).Sound)
    (safe : body.Safe admitted state)
    (rest : ∀ value after, (engineOf state).Leads scope (engineOf after) →
      (engineOf after).Sound → post value after → (next value).Safe admitted after) :
    (body >>= next).Safe admitted state :=
  safe.bind (works sound) fun value after ⟨leads, holds⟩ =>
    rest value after leads (leads.sound sound) holds

/-! ## Budgets -/

/-- A budget whose rest was spent is exhausted. -/
theorem Budget.isExhausted_useUp (budget : Budget) : budget.useUp.isExhausted = true := by
  unfold useUp
  split
  next exhausted => exact exhausted
  next =>
    have atLimit : UInt64.ofNat (budget.spent + (budget.limit - budget.used).toNat) =
        budget.limit := by
      rw [UInt64.ofNat_add, UInt64.ofNat_toNat]
      change budget.used + (budget.limit - budget.used) = budget.limit
      rw [UInt64.add_comm, UInt64.sub_add_cancel]
    exact decide_eq_true (UInt64.le_of_eq atLimit.symm)

/-- A budget that refuses steps is exhausted. -/
theorem Budget.isExhausted_of_spend {budget : Budget} {interrupted : Bool} {steps : UInt64}
    (refused : (budget.spend interrupted steps).1 = false) :
    (budget.spend interrupted steps).2.isExhausted = true := by
  unfold spend at *
  dsimp only at *
  split at refused
  next raised =>
    rw [if_pos raised]
    exact isExhausted_useUp _
  next quiet =>
    rw [if_neg quiet]
    simpa using refused

/-! ## Places in the index -/

namespace Occurrences

variable {index : Occurrences} {handle : Handle}

theorem exists_modify? {literal : Literal} {change : Occurrence → Occurrence}
    (inside : literal.index < index.entries.size) : ∃ after,
      index.modify? literal change = some after ∧ after.entries.size = index.entries.size := by
  unfold modify?
  rw [if_pos inside]
  exact ⟨_, rfl, Array.size_modify⟩

/-- A clause can be listed where there are lists for its literals. -/
theorem exists_add {literals : List Literal}
    (inside : ∀ literal ∈ literals, literal.index < index.entries.size) :
    ∃ after, index.add handle literals = some after ∧ after.entries.size = index.entries.size := by
  induction literals generalizing index with
  | nil => exact ⟨index, rfl, rfl⟩
  | cons literal rest ih =>
    obtain ⟨middle, changed, size⟩ := exists_modify? (inside literal List.mem_cons_self)
    obtain ⟨after, added, same⟩ := ih fun other member =>
      size ▸ inside other (List.mem_cons_of_mem _ member)
    exact ⟨after, by rw [add, changed]; exact added, same.trans size⟩

/-- A clause can be taken out of the lists of its literals. -/
theorem exists_remove {literals : List Literal}
    (inside : ∀ literal ∈ literals, literal.index < index.entries.size) :
    ∃ after, index.remove handle literals = some after ∧
      after.entries.size = index.entries.size := by
  induction literals generalizing index with
  | nil => exact ⟨index, rfl, rfl⟩
  | cons literal rest ih =>
    obtain ⟨middle, changed, size⟩ := exists_modify? (inside literal List.mem_cons_self)
    obtain ⟨after, removed, same⟩ := ih fun other member =>
      size ▸ inside other (List.mem_cons_of_mem _ member)
    exact ⟨after, by rw [remove, removeFrom, changed]; exact removed, same.trans size⟩

/-- Clauses are removed lazily where there are lists for their literals. -/
theorem exists_removeLazily {literals : List Literal}
    (inside : ∀ literal ∈ literals, literal.index < index.entries.size) :
    ∃ after, index.removeLazily literals = some after ∧
      after.entries.size = index.entries.size := by
  induction literals generalizing index with
  | nil => exact ⟨index, rfl, rfl⟩
  | cons literal rest ih =>
    obtain ⟨own, others⟩ := List.forall_mem_cons.1 inside
    obtain ⟨middle, changed, size⟩ : ∃ middle, index.modify? literal
        (fun entry => { entry with count := entry.count - 1 }) = some middle ∧ _ :=
      exists_modify? own
    obtain ⟨marked, isMarked, sizeMarked⟩ : ∃ marked, middle.markDirty literal = some marked ∧
        marked.entries.size = middle.entries.size := by
      have known : middle.entry? literal = some _ := Array.getElem?_eq_getElem (size.symm ▸ own)
      obtain ⟨flagged, isFlagged, sizeFlagged⟩ : ∃ flagged, middle.modify? literal
          (fun entry => { entry with dirty := true }) = some flagged ∧ _ :=
        exists_modify? (size.symm ▸ own)
      simp only [markDirty, known, isFlagged, Option.bind_eq_bind, Option.bind_some]
      split
      · exact ⟨_, rfl, rfl⟩
      · exact ⟨_, rfl, sizeFlagged⟩
    obtain ⟨after, removed, same⟩ := ih fun other member =>
      (sizeMarked.trans size).symm ▸ others other member
    refine ⟨after, ?_, same.trans (sizeMarked.trans size)⟩
    simp only [removeLazily, changed, isMarked, removed, Option.bind_eq_bind, Option.bind_some]

end Occurrences

/-- There are lists for the literals of a live clause. -/
theorem Listed.index_lt {index : Occurrences} {arena : Arena} (listed : Listed index arena)
    {handle : Handle} {clause : Clause} (live : arena.live? handle = some clause) :
    ∀ literal ∈ clause.literals, literal.index < index.entries.size := by
  intro literal member
  obtain ⟨found, alive⟩ := Arena.live?_eq_some.1 live
  obtain ⟨_, inSlot⟩ := Arena.get?_eq_some.1 found
  obtain ⟨handles, list, _⟩ := listed.complete _ clause inSlot alive literal member
  rw [Occurrences.list?_eq, Option.map_eq_some_iff] at list
  obtain ⟨entry, place, _⟩ := list
  exact (Array.getElem?_eq_some_iff.1 place).1

/-- The values of the literals of a variable of the trail are known. -/
theorem Trail.literalValue?_of_lt {trail : Trail} {literal : Literal}
    (inside : literal.var < trail.vars.size) :
    trail.literalValue? literal = some (literal.valueUnder trail.vars[literal.var].value) :=
  Trail.literalValue?_eq_some.2 ⟨_, Array.getElem?_eq_getElem inside, rfl⟩

/-- A trail has one literal for a variable. -/
theorem Trail.Orderly.size_le {trail : Trail} (orderly : trail.Orderly) :
    trail.literals.size ≤ trail.vars.size := by
  have small : ∀ name ∈ trail.facts.map Literal.var, name < trail.vars.size := by
    intro name member
    obtain ⟨literal, fact, rfl⟩ := List.mem_map.1 member
    obtain ⟨state, found, _⟩ := Option.map_eq_some_iff.1 (Trail.mem_facts.1 fact).2
    exact (Array.getElem?_eq_some_iff.1 found).1
  rw [← Array.length_toList, ← orderly, ← List.length_map Literal.var]
  have within : trail.facts.map Literal.var ⊆ List.range trail.vars.size :=
    fun name member => List.mem_range.2 (small name member)
  exact ((List.subperm_of_subset trail.nodup_facts within).length_le).trans_eq List.length_range

namespace Engine

variable {admitted : Breakdown → Prop} {engine : Engine} {literal : Literal} {handle : Handle}
  {clause : Clause} {trail : Trail} {literals : List Literal}

/-! ## Looks -/

theorem clause_of_get? (found : engine.arena.get? handle = some clause) :
    Engine.clause handle engine = .done clause engine := by
  simp [Engine.clause, Run.read, found]

/-- The index has entries for the literals of all variables, and no level is open. -/
structure Roomy (engine : Engine) : Prop where
  nonempty : 0 < engine.trail.vars.size
  room : engine.index.entries.size = 2 * engine.trail.vars.size
  atRoot : engine.trail.levels = #[]

theorem InStep.roomy (inStep : engine.InStep) : engine.Roomy :=
  ⟨inStep.trail.nonempty, inStep.room, inStep.trail.atRoot⟩

/-- The literals of a variable have entries in the index. -/
theorem Roomy.index_lt (roomy : engine.Roomy) (inside : literal.var < engine.trail.vars.size) :
    literal.index < engine.index.entries.size := by
  rw [roomy.room]
  change literal.code.toNat < _
  change literal.code.toNat / 2 < _ at inside
  omega

theorem Roomy.exists_entry (roomy : engine.Roomy) (inside : literal.var < engine.trail.vars.size) :
    ∃ entry, engine.index.entry? literal = some entry :=
  ⟨_, Array.getElem?_eq_getElem (roomy.index_lt inside)⟩

theorem occurrences_of_list? {handles : Array Handle}
    (list : engine.index.list? literal = some handles) :
    occurrences literal engine = .done handles.toList engine := by
  simp [occurrences, Run.read, list]

/-- The list of a literal can be read. -/
theorem safe_occurrences (roomy : engine.Roomy) (inside : literal.var < engine.trail.vars.size) :
    (occurrences literal).Safe admitted engine := by
  obtain ⟨entry, found⟩ := roomy.exists_entry inside
  have list : engine.index.list? literal = some entry.handles := by
    rw [Occurrences.list?, found, Option.map_some]
  exact .of_done (occurrences_of_list? list)

theorem exists_isRemovable? {name : Nat} (inside : name < engine.trail.vars.size) :
    ∃ removable, engine.isRemovable? name = some removable := by
  unfold isRemovable?
  rw [Array.getElem?_eq_getElem inside]
  exact ⟨_, rfl⟩

theorem isRemovable_of_eq_some {name : Nat} {removable : Bool}
    (found : engine.isRemovable? name = some removable) :
    isRemovable name engine = .done removable engine := by
  simp only [isRemovable, Run.read, found]

/-- Counters and notices do not matter. -/
theorem Sound.of_same [Realm] {after : Engine} (sound : engine.Sound)
    (arena : after.arena = engine.arena) (index : after.index = engine.index)
    (trail : after.trail = engine.trail) (records : after.records = engine.records)
    (proof : after.proof = engine.proof) (applied : after.applied = engine.applied) :
    after.Sound where
  toInStep := sound.toInStep.of_same arena index trail applied
  wellFormed := by
    rw [picture_eq_of_same arena trail records proof]
    exact sound.wellFormed

/-- The variables of live clauses are variables of the engine. -/
theorem Sound.var_lt [Realm] (sound : engine.Sound)
    (live : engine.arena.live? handle = some clause) (inside : literal ∈ clause.literals) :
    0 < literal.var ∧ literal.var < engine.trail.vars.size := by
  have admits := sound.wellFormed.admits _ (Arena.contents_of_live live)
  obtain ⟨positive, bound, _⟩ := present_of_lookup (admits.present literal inside)
  exact ⟨positive, bound⟩

/-- The number of variables does not change. -/
theorem Leads.vars_size [Realm] {scope : Scope} {after : Engine} (leads : engine.Leads scope after)
    (sound : engine.Sound) : after.trail.vars.size = engine.trail.vars.size := by
  have same : after.trail.vars.size - 1 = engine.trail.vars.size - 1 := Steps.numVars_eq leads.steps
  have := sound.trail.nonempty
  have := leads.inStep.trail.nonempty
  omega

/-! ## Changes of clauses -/

theorem updateIndex_of_eq_some {change : Occurrences → Option Occurrences} {index : Occurrences}
    (changed : change engine.index = some index) :
    updateIndex change engine = .done () { engine with index := index } := by
  simp [updateIndex, Run.update, changed]

theorem updateArena_of_eq_some {change : Arena → Option Arena} {arena : Arena}
    (changed : change engine.arena = some arena) :
    updateArena change engine = .done () { engine with arena := arena } := by
  simp [updateArena, Run.update, changed]

theorem updateTrail_of_eq_some {change : Trail → Option Trail}
    (changed : change engine.trail = some trail) :
    updateTrail change engine = .done () { engine with trail := trail } := by
  simp [updateTrail, Run.update, changed]

/-- A live clause can be removed. -/
theorem safe_removeClause (listed : Listed engine.index engine.arena)
    (live : engine.arena.live? handle = some clause) :
    (removeClause handle).Safe admitted engine := by
  obtain ⟨found, _⟩ := Arena.live?_eq_some.1 live
  obtain ⟨index, unlisted, _⟩ := Occurrences.exists_remove (listed.index_lt live)
  obtain ⟨arena, removed⟩ : ∃ arena, engine.arena.remove handle = some arena := by
    simp [Arena.remove, found]
  refine .step (clause_of_get? found) (.step rfl ?_)
  refine .step (updateIndex_of_eq_some unlisted) ?_
  exact .step (updateArena_of_eq_some removed) (.of_done rfl)

theorem safe_removeWithRecord (listed : Listed engine.index engine.arena)
    (live : engine.arena.live? handle = some clause) :
    (removeWithRecord handle literal).Safe admitted engine := by
  refine .step (clause_of_get? (Arena.live?_eq_some.1 live).1) ?_
  split
  · exact safe_removeClause listed live
  · exact .step rfl (safe_removeClause listed live)

/-- A literal of a live clause can be taken out of it. -/
theorem safe_shorten (listed : Listed engine.index engine.arena)
    (live : engine.arena.live? handle = some clause) (inside : literal ∈ clause.literals) :
    (do
      prove (.added (clause.literals.filter fun l => l != literal))
      prove (.removed clause.literals)
      updateArena fun arena => (arena.strengthen handle literal).map Prod.snd
      updateIndex fun index => index.removeFrom handle literal
      count fun tally => { tally with strengthened := tally.strengthened + 1 }
      touch).Safe admitted engine := by
  obtain ⟨found, _⟩ := Arena.live?_eq_some.1 live
  obtain ⟨arena, shrunk⟩ : ∃ arena,
      (engine.arena.strengthen handle literal).map Prod.snd = some arena := by
    unfold Arena.strengthen
    rw [found]
    dsimp only
    split <;> exact ⟨_, rfl⟩
  obtain ⟨index, unlisted⟩ : ∃ index, engine.index.removeFrom handle literal = some index :=
    (Occurrences.exists_modify? (listed.index_lt live literal inside)).imp fun _ => And.left
  refine .step rfl (.step rfl (.step (updateArena_of_eq_some shrunk) ?_))
  exact .step (updateIndex_of_eq_some unlisted) (.step rfl (.of_done rfl))

/-! ## Root literals -/

theorem literalValue_of_lt (inside : literal.var < engine.trail.vars.size) :
    literalValue literal engine =
      .done (literal.valueUnder engine.trail.vars[literal.var].value) engine := by
  simp only [literalValue, Run.read, Trail.literalValue?_of_lt inside]

/-- A literal of a variable can be assigned, or it is refused. -/
theorem safe_assignUnit (atRoot : engine.trail.levels = #[])
    (inside : literal.var < engine.trail.vars.size) :
    (assignUnit literal).Safe admitted engine := by
  have looked := Array.getElem?_eq_getElem inside
  refine .step (literalValue_of_lt inside) ?_
  cases value : literal.valueUnder engine.trail.vars[literal.var].value with
  | some truth =>
    cases truth
    · exact .fail
    · exact .pure
  | none =>
    have flags : engine.trail.flags? literal.var = some engine.trail.vars[literal.var].flags := by
      rw [Trail.flags?, looked, Option.map_some]
    refine .look (.read flags) .read fun flags _ => ?_
    split
    · exact .fail
    refine .step rfl ?_
    have isOpen : engine.trail.literalValue? literal = some none :=
      Trail.literalValue?_eq_some.2 ⟨_, looked, value⟩
    have pushes : (Trail.assignAtRoot literal).Safe admitted engine.trail := by
      have unassigned : engine.trail.value? literal.var = some none := by
        obtain ⟨state, again, none_⟩ := Trail.literalValue?_eq_some.1 isOpen
        rw [Trail.value?, again]
        cases known : state.value with
        | none => rw [Option.map_some, known]
        | some truth => simp [known, Literal.valueUnder] at none_
      have closed : Run.update (fun trail : Trail => trail.cancelUntil 0) engine.trail =
          .done () engine.trail := by
        simp only [Run.update, Trail.cancelUntil_of_atRoot atRoot]
      refine .step closed (.step rfl ?_)
      split
      · exact .fail
      refine .look (.access unassigned) .access ?_
      rintro _ same
      rw [unassigned, Option.some.injEq] at same
      subst same
      obtain ⟨after, pushed⟩ := Trail.exists_push inside 0
      exact .update pushed
    refine .bind (.within (onTrail_apply _ _) pushes) .trivial fun _ _ _ => ?_
    exact .step rfl (.of_done rfl)

/-- Assigning a literal is no matter of the clauses. -/
theorem assignUnit_keepsFiles : (assignUnit literal).Ends engine
    (fun _ after => after.arena = engine.arena ∧ after.index = engine.index)
    fun _ _ => True := by
  unfold assignUnit
  refine Run.Looks.read.bind fun value _ => ?_
  split
  · exact .pure ⟨rfl, rfl⟩
  · exact .fail trivial
  refine Run.Looks.read.bind fun flags _ => ?_
  split
  · exact .fail trivial
  refine .step rfl (.seq (.within (onTrail_apply _ _) ?_))
  refine Run.Ends.trivial.imp (fun _ _ _ => ?_) fun _ _ _ => trivial
  exact .step rfl (.of_done rfl ⟨rfl, rfl⟩)

/-- A literal can be taken out of a live clause. -/
theorem safe_strengthen [Realm] (sound : engine.Sound)
    (live : engine.arena.live? handle = some clause) (inside : literal ∈ clause.literals) :
    (strengthen handle literal).Safe admitted engine := by
  refine .step (clause_of_get? (Arena.live?_eq_some.1 live).1) ?_
  split
  next first second pair =>
    have member : (if first = literal then second else first) ∈ clause.literals := by
      rw [pair]
      split <;> simp
    refine .bind (safe_assignUnit sound.trail.atRoot (sound.var_lt live member).2) assignUnit_keepsFiles
      fun _ after ⟨arena, index⟩ => ?_
    exact safe_removeClause (index ▸ arena ▸ sound.listed) (arena ▸ live)
  next => exact safe_shorten sound.listed live inside

/-! ## Storing clauses -/

/-- Whether a clause is satisfied can be told. -/
theorem exists_satisfies? (inside : ∀ literal ∈ literals, literal.var < trail.vars.size) :
    ∃ answer, trail.satisfies? literals = some answer := by
  induction literals with
  | nil => exact ⟨false, rfl⟩
  | cons literal rest ih =>
    obtain ⟨own, others⟩ := List.forall_mem_cons.1 inside
    obtain ⟨answer, found⟩ := ih others
    rw [Trail.satisfies?, Trail.literalValue?_of_lt own, found, Option.bind_eq_bind, Option.bind_some]
    split <;> exact ⟨_, rfl⟩

/-- Its open literals can be listed. -/
theorem exists_openLiterals? (inside : ∀ literal ∈ literals, literal.var < trail.vars.size) :
    ∃ remaining, openLiterals? trail literals = some remaining := by
  induction literals with
  | nil => exact ⟨[], rfl⟩
  | cons literal rest ih =>
    obtain ⟨own, others⟩ := List.forall_mem_cons.1 inside
    obtain ⟨remaining, found⟩ := ih others
    rw [openLiterals?, Trail.literalValue?_of_lt own, found]
    exact ⟨_, rfl⟩

/-- A clause over the variables of the engine can be put behind the others, if there is a
name for it. -/
theorem safe_insertClause {α : Type} {next : Handle → Run Engine α} {redundant : Bool}
    (roomy : engine.Roomy) (inside : ∀ literal ∈ literals, literal.var < engine.trail.vars.size)
    (room : engine.arena.slots.size + 1 < UInt32.size ∨ admitted .outOfSpace)
    (rest : ∀ handle after, (next handle).Safe admitted after) :
    (do
      let handle ← insertClause literals redundant
      let stored ← Engine.clause handle
      updateIndex fun index => index.add handle stored.literals
      next handle).Safe admitted engine := by
  by_cases space : engine.arena.slots.size + 1 < UInt32.size
  swap
  · have refused : insertClause literals redundant engine = .stuck .outOfSpace := if_neg space
    intro why broke
    rw [Run.bind_of_stuck refused] at broke
    cases broke
    exact room.resolve_left space
  have inserted : insertClause literals redundant engine =
      .done (engine.arena.handleAt engine.arena.slots.size)
        { engine with arena := (engine.arena.insert literals redundant).2 } := by
    rw [insertClause, if_pos space]
    rfl
  have stored : (engine.arena.insert literals redundant).2.get?
      (engine.arena.handleAt engine.arena.slots.size) =
        some (Clause.ofLiterals literals redundant) := by
    have place : (engine.arena.handleAt engine.arena.slots.size).index = engine.arena.slots.size :=
      Arena.index_handleAt (by omega)
    refine Arena.get?_eq_some.2 ⟨rfl, ?_⟩
    rw [place]
    exact Array.getElem?_push_size
  obtain ⟨index, added, _⟩ : ∃ index, engine.index.add
      (engine.arena.handleAt engine.arena.slots.size)
      (Clause.ofLiterals literals redundant).literals = some index ∧ _ :=
    Occurrences.exists_add fun literal member =>
      roomy.index_lt (inside literal (mem_sortedLiterals.1 member))
  refine .step inserted (.step (clause_of_get? stored) ?_)
  exact .step (updateIndex_of_eq_some added) (rest _ _)

/-- Every clause can be stored, or it is refused, if there is a name for it. -/
theorem safe_storeClause {redundant derived : Bool} (roomy : engine.Roomy)
    (room : engine.arena.slots.size + 1 < UInt32.size ∨ admitted .outOfSpace) :
    (storeClause literals redundant derived).Safe admitted engine := by
  unfold storeClause
  refine .step rfl ?_
  split
  next => exact .fail
  next inRange =>
  have inside : ∀ literal ∈ sortedLiterals literals, literal.var < engine.trail.vars.size := by
    intro literal member
    have fine : ¬ engine.numVars < literal.var := fun wrong => inRange
      (List.any_eq_true.2 ⟨literal, mem_sortedLiterals.1 member, by simp [wrong]⟩)
    have nonempty := roomy.nonempty
    unfold numVars Trail.numVars at fine
    omega
  dsimp only
  split
  next => exact .pure
  next =>
    obtain ⟨answer, asked⟩ := exists_satisfies? inside
    refine .step (Run.access_of_eq_some asked) ?_
    split
    next => exact .pure
    next =>
    obtain ⟨remaining, opened⟩ := exists_openLiterals? inside
    refine .step (Run.access_of_eq_some opened) ?_
    have insideRest : ∀ literal ∈ remaining, literal.var < engine.trail.vars.size :=
      fun literal member => inside literal ((openLiterals?_spec opened).1.subset member)
    split
    next => exact .fail
    next literal =>
      exact .bind (safe_assignUnit roomy.atRoot (insideRest literal List.mem_cons_self)) .trivial
        fun _ _ _ => .pure
    next =>
      split
      · exact .step rfl (safe_insertClause ⟨roomy.nonempty, roomy.room, roomy.atRoot⟩ insideRest room
          fun _ _ => .step rfl .pure)
      · exact safe_insertClause roomy insideRest room fun _ _ => .step rfl .pure

/-- Storing a clause takes one slot at most. -/
theorem storeClause_slots {redundant derived : Bool} (inStep : engine.InStep) :
    (storeClause literals redundant derived).Ends engine
      (fun _ after => after.arena.slots.size ≤ engine.arena.slots.size + 1) fun _ _ => True := by
  refine storeClause_ends inStep.trail (fun _ => trivial) (fun _ _ => Nat.le_succ _)
    (fun _ => Nat.le_succ _) fun _ _ remaining reduced => ?_
  rcases remaining with _ | ⟨first, _ | ⟨second, others⟩⟩
  · exact .fail trivial
  · refine assignUnit_keepsFiles.bind fun _ after ⟨arena, _⟩ => .pure ?_
    rw [arena]
    exact Nat.le_succ _
  · have inserted : ∀ before : Engine, before.InStep → before.arena = engine.arena →
        (do
          let handle ← insertClause (first :: second :: others) redundant
          let stored ← Engine.clause handle
          updateIndex fun index => index.add handle stored.literals
          touch
          return some handle).Ends before
            (fun _ after => after.arena.slots.size ≤ engine.arena.slots.size + 1)
            fun _ _ => True := by
      intro before inStepBefore same
      refine insertClause_seq inStepBefore reduced.sorted fun after inserts => .step rfl (.pure ?_)
      change after.arena.slots.size ≤ _
      rw [inserts.slots, Array.size_push, same]
    unfold storeRemaining
    dsimp only
    split
    · exact .step rfl (inserted _ (inStep.of_same rfl rfl rfl rfl) rfl)
    · exact inserted engine inStep rfl

/-! ## Applying root literals -/

section Units

variable [Realm]

/-- Removing satisfied clauses is safe. -/
theorem safe_removeSatisfied (handles : List Handle) (sound : engine.Sound)
    (atRoot : literal ∈ engine.trail.facts) :
    (removeSatisfied literal handles).Safe admitted engine := by
  induction handles generalizing engine with
  | nil => exact .pure
  | cons handle rest ih =>
    unfold removeSatisfied
    refine .step rfl ?_
    split
    next held =>
      obtain ⟨clause, live, member⟩ := Arena.holds_iff.1 held
      have works : Works .propagation (removeClause handle) engine _ :=
        works_removeClause_of_root live member atRoot
      refine works.safe_bind sound (safe_removeClause sound.listed live)
        fun _ middle leads soundAfter _ => ?_
      exact ih soundAfter (leads.mem_root atRoot)
    next => exact .step rfl (ih sound atRoot)

/-- So is removing false literals. -/
theorem safe_removeFalsified (handles : List Handle) (sound : engine.Sound)
    (falsified : literal.complement ∈ engine.trail.facts) :
    (removeFalsified literal handles).Safe admitted engine := by
  induction handles generalizing engine with
  | nil => exact .pure
  | cons handle rest ih =>
    unfold removeFalsified
    refine .step rfl ?_
    split
    next held =>
      obtain ⟨clause, live, member⟩ := Arena.holds_iff.1 held
      have works : Works .propagation (strengthen handle literal) engine _ :=
        works_strengthen live member (rup_erase_of_false live falsified)
      refine works.safe_bind sound (safe_strengthen sound live member)
        fun _ middle leads soundAfter _ => ?_
      exact ih soundAfter (leads.mem_root falsified)
    next => exact .step rfl (ih sound falsified)

/-- Every turn applies one literal of the trail, and the trail does not outgrow the
number of variables. -/
theorem safe_applyUnits (fuel : Nat) (sound : engine.Sound)
    (enough : admitted .outOfFuel ∨ (engine.trail.Orderly ∧ 0 < fuel ∧
      engine.trail.vars.size < fuel + engine.applied)) :
    (applyUnits fuel).Safe admitted engine := by
  induction fuel generalizing engine with
  | zero =>
    exact .stop (enough.resolve_right fun ⟨_, positive, _⟩ => absurd positive (Nat.lt_irrefl 0))
  | succ fuel ih =>
    unfold applyUnits
    refine .step rfl ?_
    split
    next => exact .pure
    next literal found =>
    have here : engine.trail.literals[engine.applied]? = some literal := found
    have onTrail : literal ∈ engine.trail.literals.toList.drop engine.applied := by
      refine List.mem_iff_getElem?.2 ⟨0, ?_⟩
      rw [List.getElem?_drop, Nat.add_zero, Array.getElem?_toList, here]
    have atRoot := sound.due literal onTrail
    have soundNext : Engine.Sound { engine with applied := engine.applied + 1 } := sound.advance
    have inside : ∀ {later : Engine}, later.Sound → literal ∈ later.trail.facts →
        0 < literal.var ∧ literal.var < later.trail.vars.size := by
      intro later soundLater fact
      obtain ⟨positive, bound, _⟩ := soundLater.wellFormed.known literal fact
      exact ⟨positive, Trail.lt_of_le_numVars soundLater.trail.nonempty bound⟩
    refine .step rfl (.look (safe_occurrences soundNext.roomy (inside soundNext atRoot).2)
      looks_occurrences fun handles _ => ?_)
    have removes : Works .propagation (removeSatisfied literal handles)
        { engine with applied := engine.applied + 1 } _ := works_removeSatisfied handles atRoot
    refine removes.safe_bind soundNext (safe_removeSatisfied handles soundNext atRoot)
      fun _ middle leads soundMiddle ⟨thins, _⟩ => ?_
    have still := leads.mem_root atRoot
    obtain ⟨positive, bound⟩ := inside soundMiddle still
    have falsified : literal.complement.complement ∈ middle.trail.facts := by
      rwa [Literal.complement_complement positive]
    refine .look (safe_occurrences soundMiddle.roomy
      (Literal.var_complement positive ▸ bound)) looks_occurrences fun others _ => ?_
    have strengthens : Works .propagation (removeFalsified literal.complement others) middle _ :=
      works_removeFalsified others falsified
    refine strengthens.safe_bind soundMiddle (safe_removeFalsified others soundMiddle falsified)
      fun _ last leadsLast soundLast ⟨thinsLast, _⟩ => ?_
    refine ih soundLast (enough.imp_right fun ⟨orderly, _, room⟩ => ?_)
    have size : last.trail.vars.size = engine.trail.vars.size :=
      (leadsLast.vars_size soundMiddle).trans (leads.vars_size soundNext)
    have before : engine.applied < engine.trail.literals.size :=
      (Array.getElem?_eq_some_iff.1 here).1
    have short := Trail.Orderly.size_le orderly
    have advanced : last.applied = engine.applied + 1 :=
      thinsLast.applied.trans thins.applied
    exact ⟨leadsLast.orderly (leads.orderly orderly), by omega, by omega⟩

/-- Root literals can be applied. -/
theorem safe_propagateUnits (sound : engine.Sound)
    (enough : admitted .outOfFuel ∨ engine.trail.Orderly) :
    propagateUnits.Safe admitted engine := by
  refine .step rfl (safe_applyUnits _ sound (enough.imp_right fun orderly => ⟨orderly, ?_, ?_⟩))
  · exact Nat.succ_pos _
  · change _ < engine.trail.literals.size + engine.trail.vars.size + 1 + engine.applied
    omega

end Units

/-! ## Conclusions -/

/-- A conclusion can always be drawn. -/
theorem safe_conclude {result : Except Error Unit} : (conclude result).Safe admitted engine := by
  unfold conclude
  split
  · exact .of_done rfl
  split
  · refine .step rfl ?_
    split <;> exact .of_done rfl
  split <;> exact .of_done rfl

theorem conclude_of_isUnsat {cause : Error} (isUnsat : cause.isUnsat = true) :
    (conclude (.error cause)).Ends engine (fun status _ => status = .unsat) fun _ _ => False := by
  unfold conclude
  dsimp only
  rw [if_pos isUnsat]
  refine .step rfl ?_
  split <;> exact .of_done rfl rfl

end Engine

/-! ## Techniques -/

namespace Work

variable {τ : Type} {admitted : Breakdown → Prop} {base : Settings → UInt64} {body : Work τ Unit}
  {notice : Nat → Engine → Budget → Engine → Notice} {state : Tool τ × Engine}

theorem own_apply (tool : Tool τ) (engine : Engine) :
    (own : Work τ τ) (tool, engine) = .done tool.own (tool, engine) := rfl

theorem modifyOwn_apply (change : τ → τ) (tool : Tool τ) (engine : Engine) :
    modifyOwn change (tool, engine) = .done () ({ tool with own := change tool.own }, engine) := rfl

theorem getEngine_apply (tool : Tool τ) (engine : Engine) :
    (liftM (get : Run Engine Engine) : Work τ Engine) (tool, engine) =
      .done engine (tool, engine) := rfl

/-- Steps can always be asked for. -/
theorem spend_done (steps : Nat) (tool : Tool τ) (engine : Engine) :
    ∃ goOn budget, (Work.spend steps : Work τ Bool) (tool, engine) =
      .done goOn ({ tool with budget := budget }, engine) ∧
        (goOn = false → budget.isExhausted = true) :=
  ⟨_, _, rfl, Budget.isExhausted_of_spend⟩

/-- A technique gets stuck only where its body does. -/
theorem safe_process (safe : ∀ tool : Tool τ, tool.own = state.1.own →
      tool.budget = state.1.budget.start (state.2.stepLimit (base state.2.settings)) →
      body.Safe admitted (tool, state.2)) :
    (Work.process base body notice).Safe admitted state := by
  refine .step rfl (.step rfl (.step rfl ?_))
  refine .bind (safe _ (by rfl) (by rfl)).attempt .trivial fun result after _ => ?_
  exact .step rfl (.step rfl (.step rfl Engine.safe_conclude.lift))

/-- Unless a technique says that the formula has no model its body was done, and only a
notice came after that. -/
theorem process_ends_of_body {done : Tool τ → Engine → Prop}
    (ends : ∀ tool : Tool τ, tool.own = state.1.own →
      tool.budget = state.1.budget.start (state.2.stepLimit (base state.2.settings)) →
      body.Ends (tool, state.2) (fun _ after => done after.1 after.2)
        fun cause _ => cause.isUnsat = true) :
    (Work.process base body notice).Ends state (fun status after => status ≠ .unsat →
      ∃ notices last, done after.1 last ∧ after.2 = { last with notices := notices })
      fun _ _ => False := by
  have attempted : ∀ tool : Tool τ, tool.own = state.1.own →
      tool.budget = state.1.budget.start (state.2.stepLimit (base state.2.settings)) →
      body.attempt.Ends (tool, state.2) (fun result after =>
        match result with
        | .ok _ => done after.1 after.2
        | .error cause => cause.isUnsat = true) fun _ _ => False := fun tool own budget =>
    .attempt ((ends tool own budget).imp (fun _ _ reached => reached) fun _ _ isUnsat => isUnsat)
  refine .step rfl (.step rfl (.step rfl ?_))
  refine .bind (attempted _ (by rfl) (by rfl)) fun result after reached => ?_
  refine .step rfl (.step rfl (.step rfl ?_))
  match result, reached with
  | .ok (), reached => exact .of_done rfl fun _ => ⟨_, after.2, reached, rfl⟩
  | .error cause, isUnsat =>
    refine (Run.Ends.lift (Engine.conclude_of_isUnsat isUnsat)).imp ?_ fun _ _ => id
    exact fun status final holds isOpen => absurd holds.2 isOpen

/-- A technique whose body comes to an end comes to a conclusion. -/
theorem process_returns {done : Tool τ → Engine → Prop}
    (finishes : ∀ tool : Tool τ, tool.own = state.1.own →
      tool.budget = state.1.budget.start (state.2.stepLimit (base state.2.settings)) →
      body.Finishes (tool, state.2) (fun _ after => done after.1 after.2)
        fun cause _ => cause.isUnsat = true) :
    (Work.process base body notice).Returns state fun status after => status ≠ .unsat →
      ∃ notices last, done after.1 last ∧ after.2 = { last with notices := notices } :=
  (safe_process fun tool own budget => (finishes tool own budget).safe).returns
    (process_ends_of_body fun tool own budget => (finishes tool own budget).ends) fun _ _ => id

end Work

end CnfSimplifier
