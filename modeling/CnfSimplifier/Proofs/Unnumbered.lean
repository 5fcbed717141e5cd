import CnfSimplifier.Proofs.Ending
import CnfSimplifier.Simplifier

/-!
# Computations that take no notice of the numbering

Numbering the variables is the last step of a run. Everything before it works on
the engine, where variables keep their names, and is not to depend on whether a
numbering is wanted or in effect. So two simplifiers that differ only there have
to go through the same steps. Notices are left out of the comparison as well: the
one on the numbering is part of the difference, and nothing reads them.

A computation is compared with itself on the bare state. One lemma for each
operation of the engine is enough for all techniques, which change the engine
through these operations only.
-/
namespace CnfSimplifier

/-- A state in which a numbering may be wanted or in effect. -/
class HasNumbering (σ : Type) where
  /-- The state without a numbering, without the wish for one, and without notices. -/
  unnumbered : σ → σ
  unnumbered_twice : ∀ state, unnumbered (unnumbered state) = unnumbered state

export HasNumbering (unnumbered)

/-- The engine without the wish for a numbering and without notices. -/
def Engine.unnumbered (engine : Engine) : Engine :=
  { engine with settings := { engine.settings with renumbering := false }, notices := #[] }

instance : HasNumbering Engine := ⟨Engine.unnumbered, fun _ => rfl⟩

instance {τ : Type} : HasNumbering (τ × Engine) :=
  ⟨fun state => (state.1, state.2.unnumbered), fun _ => rfl⟩

/-- Two ends of a computation that differ only in the numbering. -/
inductive Outcome.Alike {σ α : Type} [HasNumbering σ] : Outcome σ α → Outcome σ α → Prop
  | done {value : α} {first second : σ} (same : unnumbered first = unnumbered second) :
    Alike (.done value first) (.done value second)
  | failed {cause : Error} {first second : σ} (same : unnumbered first = unnumbered second) :
    Alike (.failed cause first) (.failed cause second)
  | stuck {why : Breakdown} : Alike (.stuck why) (.stuck why)

namespace Outcome.Alike

variable {σ α β : Type} [HasNumbering σ] {first second third : Outcome σ α}

theorem symm (alike : first.Alike second) : second.Alike first := by
  cases alike with
  | done same => exact .done same.symm
  | failed same => exact .failed same.symm
  | stuck => exact .stuck

theorem trans (left : first.Alike second) (right : second.Alike third) : first.Alike third := by
  cases left with
  | done same =>
    cases right with
    | done further => exact .done (same.trans further)
  | failed same =>
    cases right with
    | failed further => exact .failed (same.trans further)
  | stuck => exact right

/-- Two computations that went alike so far go on alike if their continuations do. These may
rest on what the two computations came to. -/
theorem bindDone {body other : Run σ α} {next further : α → Run σ β} {state start : σ}
    (alike : (body state).Alike (other start))
    (rest : ∀ value after last, body state = .done value after → other start = .done value last →
      unnumbered after = unnumbered last → (next value after).Alike (further value last)) :
    ((body >>= next) state).Alike ((other >>= further) start) := by
  rw [Run.bind_apply, Run.bind_apply]
  generalize isBare : body state = bare, isFull : other start = full at alike ⊢
  cases alike with
  | done same => exact rest _ _ _ isBare isFull same
  | failed same => exact .failed same
  | stuck => exact .stuck

theorem bind {body other : Run σ α} {next further : α → Run σ β} {state start : σ}
    (alike : (body state).Alike (other start))
    (rest : ∀ value after last, unnumbered after = unnumbered last →
      (next value after).Alike (further value last)) :
    ((body >>= next) state).Alike ((other >>= further) start) :=
  alike.bindDone fun value after last _ _ => rest value after last

/-- Ends on a part of the state are put into the whole. -/
theorem mapState {τ : Type} [HasNumbering τ] {put further : σ → τ} (alike : first.Alike second)
    (back : ∀ after last, unnumbered after = unnumbered last →
      unnumbered (put after) = unnumbered (further last)) :
    (first.mapState put).Alike (second.mapState further) := by
  cases alike with
  | done same => exact .done (back _ _ same)
  | failed same => exact .failed (back _ _ same)
  | stuck => exact .stuck

end Outcome.Alike

/-- The computation goes the same way on the bare state. -/
def IgnoresNumbering {σ α : Type} [HasNumbering σ] (body : Run σ α) : Prop :=
  ∀ state, (body (unnumbered state)).Alike (body state)

namespace IgnoresNumbering

open HasNumbering (unnumbered_twice)

variable {σ τ α β : Type} [HasNumbering σ] {body : Run σ α}

/-- States that differ only in the numbering cannot be told apart. -/
theorem alike (ignores : IgnoresNumbering body) {first second : σ}
    (same : unnumbered first = unnumbered second) : (body first).Alike (body second) :=
  (ignores first).symm.trans (same ▸ ignores second)

theorem pure {value : α} : IgnoresNumbering (pure value : Run σ α) :=
  fun state => .done (unnumbered_twice state)

theorem fail {cause : Error} : IgnoresNumbering (Run.fail cause : Run σ α) :=
  fun state => .failed (unnumbered_twice state)

theorem stop {why : Breakdown} : IgnoresNumbering (Run.stop why : Run σ α) := fun _ => .stuck

theorem access {found : Option α} : IgnoresNumbering (Run.access found : Run σ α) := by
  cases found with
  | none => exact stop
  | some value => exact pure

/-- A look at what the bare state has as well. -/
theorem read {look : σ → Option α}
    (same : ∀ state, look (unnumbered state) = look state) :
    IgnoresNumbering (Run.read look) := by
  intro state
  unfold Run.read
  rw [same]
  cases look state with
  | none => exact .stuck
  | some value => exact .done (unnumbered_twice state)

/-- A change of what the bare state has as well. -/
theorem update {change : σ → Option σ}
    (same : ∀ state, (change (unnumbered state)).map unnumbered = (change state).map unnumbered) :
    IgnoresNumbering (Run.update change) := by
  intro state
  have here := same state
  unfold Run.update
  cases bare : change (unnumbered state) <;> cases full : change state <;> rw [bare, full] at here
  case none.none => exact .stuck
  case some.some => exact .done (Option.some.inj here)
  all_goals cases here

/-- A change of what the bare state has as well, without exception. -/
theorem modify {change : σ → σ} (same : ∀ state,
    unnumbered (change (unnumbered state)) = unnumbered (change state)) :
    IgnoresNumbering (modify change : Run σ Unit) :=
  fun state => .done (same state)

theorem bind {next : α → Run σ β} (first : IgnoresNumbering body)
    (rest : ∀ value, IgnoresNumbering (next value)) : IgnoresNumbering (body >>= next) :=
  fun state => (first state).bind fun value _ _ same => (rest value).alike same

/-- What comes after a look may depend on what was seen, if that is there in the
bare state as well. -/
theorem afterGet {next : σ → Run σ β} (same : ∀ state, next (unnumbered state) = next state)
    (rest : ∀ seen, IgnoresNumbering (next seen)) :
    IgnoresNumbering (get >>= next) := by
  intro state
  change (next (unnumbered state) (unnumbered state)).Alike (next state state)
  rw [same]
  exact rest state state

theorem attempt (ignores : IgnoresNumbering body) : IgnoresNumbering body.attempt := by
  intro state
  have here := ignores state
  unfold Run.attempt
  generalize body (unnumbered state) = bare, body state = full at here ⊢
  cases here with
  | done same => exact .done same
  | failed same => exact .done same
  | stuck => exact .stuck

theorem forM {action : α → Run σ Unit} (each : ∀ value, IgnoresNumbering (action value))
    (values : List α) : IgnoresNumbering (values.forM action) :=
  Run.forM_of_turns (motive := IgnoresNumbering) .pure (fun first rest => first.bind fun _ => rest)
    fun value _ => each value

/-- Work on a part of the state. -/
theorem within {ρ : Type} [HasNumbering ρ] {inner : Run ρ α} {part : σ → ρ} {put : σ → ρ → σ}
    (same : ∀ state, body state = (inner (part state)).mapState (put state))
    (bare : ∀ state, part (unnumbered state) = unnumbered (part state))
    (back : ∀ state first second, unnumbered first = unnumbered second →
      unnumbered (put (unnumbered state) first) = unnumbered (put state second))
    (ignores : IgnoresNumbering inner) : IgnoresNumbering body := by
  intro state
  rw [same, same, bare]
  exact (ignores (part state)).mapState (back state)

/-- Work on the engine beside something else. -/
theorem lift {body : Run Engine α} (ignores : IgnoresNumbering body) :
    IgnoresNumbering (liftM body : Run (τ × Engine) α) := by
  refine @within _ _ _ _ _ _ body Prod.snd (fun state engine => (state.1, engine)) ?_ (fun _ => rfl)
    (fun state _ _ same => congrArg (Prod.mk state.1) same) ignores
  rintro ⟨first, engine⟩
  change Run.onSecond body (first, engine) = _
  unfold Run.onSecond
  dsimp only
  cases body engine <;> rfl

/-- An operation of the engine among the steps of something larger. -/
theorem step {body : Run Engine α} {next : α → Run (τ × Engine) β}
    (first : IgnoresNumbering body) (rest : ∀ value, IgnoresNumbering (next value)) :
    IgnoresNumbering ((liftM body : Run (τ × Engine) α) >>= next) := first.lift.bind rest

/-- What was looked up in the engine may differ, if what comes after does not. -/
theorem afterLook {question : Engine → α} {next : α → Run (τ × Engine) β}
    (same : ∀ engine, next (question (unnumbered engine)) = next (question engine))
    (rest : ∀ value, IgnoresNumbering (next value)) :
    IgnoresNumbering ((liftM (Engine.look question) : Run (τ × Engine) α) >>= next) := by
  intro state
  change (next (question (unnumbered state.2)) (unnumbered state)).Alike
    (next (question state.2) state)
  rw [same]
  exact rest _ state

/-- What comes after a look at the engine may depend on all but the numbering. -/
theorem afterEngine {next : Engine → Run (τ × Engine) β}
    (same : ∀ engine, next (unnumbered engine) = next engine)
    (rest : ∀ engine, IgnoresNumbering (next engine)) :
    IgnoresNumbering ((liftM (get : Run Engine Engine) : Run (τ × Engine) Engine) >>= next) :=
  @afterLook _ _ _ id next same rest

end IgnoresNumbering

/-! ## Operations of the engine -/

namespace Engine

open IgnoresNumbering

variable {α : Type} {literal : Literal}

/-- A question that has nothing to do with the numbering. -/
theorem ignores_look {question : Engine → α}
    (same : ∀ engine, question (HasNumbering.unnumbered engine) = question engine) : IgnoresNumbering (look question) := by
  intro engine
  change Outcome.Alike (.done (question _) _) _
  rw [same]
  exact .done rfl

theorem ignores_updateArena {change : Arena → Option Arena} :
    IgnoresNumbering (updateArena change) :=
  .update fun engine => by
    change ((change engine.arena).bind _).map _ = ((change engine.arena).bind _).map _
    cases change engine.arena <;> rfl

theorem ignores_updateIndex {change : Occurrences → Option Occurrences} :
    IgnoresNumbering (updateIndex change) :=
  .update fun engine => by
    change ((change engine.index).bind _).map _ = ((change engine.index).bind _).map _
    cases change engine.index <;> rfl

theorem ignores_updateTrail {change : Trail → Option Trail} :
    IgnoresNumbering (updateTrail change) :=
  .update fun engine => by
    change ((change engine.trail).bind _).map _ = ((change engine.trail).bind _).map _
    cases change engine.trail <;> rfl

/-- Work on the trail sees clauses and index only. -/
theorem ignores_onTrail {body : Arena → Occurrences → Run Trail α} :
    IgnoresNumbering (onTrail body) := by
  intro engine
  have same : body engine.unnumbered.arena engine.unnumbered.index engine.unnumbered.trail =
      body engine.arena engine.index engine.trail := rfl
  change (onTrail body engine.unnumbered).Alike (onTrail body engine)
  unfold onTrail
  rw [same]
  cases body engine.arena engine.index engine.trail with
  | done value trail => exact .done rfl
  | failed cause trail => exact .failed rfl
  | stuck why => exact .stuck

theorem ignores_clause {handle : Handle} : IgnoresNumbering (clause handle) := .read fun _ => rfl

theorem ignores_occurrences : IgnoresNumbering (occurrences literal) := .read fun _ => rfl

theorem ignores_literalValue : IgnoresNumbering (literalValue literal) := .read fun _ => rfl

theorem ignores_markClause {handle : Handle} {change : ClauseFlags → ClauseFlags} :
    IgnoresNumbering (markClause handle change) :=
  .modify fun engine => by
    have same : (HasNumbering.unnumbered engine).arena.mark handle change =
        engine.arena.mark handle change := rfl
    rw [same]
    cases engine.arena.mark handle change <;> rfl

theorem ignores_count {change : Tally → Tally} : IgnoresNumbering (count change) := .modify fun _ => rfl

theorem ignores_tell {notice : Notice} : IgnoresNumbering (tell notice) := .modify fun _ => rfl

theorem ignores_touch : IgnoresNumbering touch := .modify fun _ => rfl

theorem ignores_prove {step : ProofStep} : IgnoresNumbering (prove step) := .modify fun _ => rfl

/-- No event has to do with the numbering. -/
theorem ignores_handle {event : Event} : IgnoresNumbering (handle event) := by
  cases event with
  | newVar =>
    refine .afterGet (fun _ => rfl) fun engine => ?_
    split
    · exact ignores_updateTrail.bind fun _ => ignores_updateIndex
    · exact .stop
  | eliminated name => exact ignores_updateTrail.bind fun _ => ignores_touch
  | substituted name => exact ignores_updateTrail.bind fun _ => ignores_touch
  | asserted name => exact ignores_touch
  | reinitialized => exact @ignores_updateTrail fun trail => trail.handle .reinitialized

/-- A verdict rests on how the technique ended. -/
theorem ignores_conclude {result : Except Error Unit} : IgnoresNumbering (conclude result) := by
  unfold conclude
  split
  · exact ignores_look fun _ => rfl
  split
  · refine .afterGet (fun _ => rfl) fun engine => ?_
    dsimp only
    split
    · exact .bind .pure fun _ => .pure
    · exact .bind (.modify fun _ => rfl) fun _ => ignores_prove.bind fun _ => .pure
  split
  · exact .pure
  · exact ignores_tell.bind fun _ => .bind (.modify fun _ => rfl) fun _ => .pure
  · exact ignores_tell.bind fun _ => .pure

/-- Nothing of the numbering is looked at to assign a literal. -/
theorem ignores_assignUnit : IgnoresNumbering (assignUnit literal) := by
  refine ignores_literalValue.bind fun value => ?_
  split
  · exact .pure
  · exact .fail
  refine .bind (.read fun _ => rfl) fun flags => ?_
  split
  · exact .fail
  · exact ignores_prove.bind fun _ => ignores_onTrail.bind fun _ => ignores_count.bind fun _ =>
      ignores_handle

/-- The arena has room or not, whatever the numbering. -/
theorem ignores_insertClause {literals : List Literal} {redundant : Bool} :
    IgnoresNumbering (insertClause literals redundant) := by
  intro engine
  unfold insertClause
  change Outcome.Alike (if engine.arena.slots.size + 1 < UInt32.size then _ else _) _
  split
  · exact .done rfl
  · exact .stuck

/-- What is left of a clause is up to the trail. -/
theorem ignores_storeClause {literals : List Literal} {redundant derived : Bool} :
    IgnoresNumbering (storeClause literals redundant derived) := by
  refine .afterGet (fun _ => rfl) fun engine => ?_
  split
  · exact .fail
  dsimp only
  split
  · exact .pure
  refine .bind .access fun satisfied => ?_
  split
  · exact .pure
  refine .bind .access fun remaining => ?_
  split
  · exact .fail
  · exact ignores_assignUnit.bind fun _ => .pure
  have rest : IgnoresNumbering (do
      let handle ← insertClause remaining redundant
      let stored ← clause handle
      updateIndex fun index => index.add handle stored.literals
      touch
      return some handle) :=
    ignores_insertClause.bind fun _ => ignores_clause.bind fun _ => ignores_updateIndex.bind
      fun _ => ignores_touch.bind fun _ => .pure
  split
  · exact ignores_prove.bind fun _ => rest
  · exact rest

theorem ignores_removeClause {handle : Handle} : IgnoresNumbering (removeClause handle) :=
  ignores_clause.bind fun _ => ignores_prove.bind fun _ => ignores_updateIndex.bind fun _ =>
    ignores_updateArena.bind fun _ => ignores_touch

theorem ignores_strengthen {handle : Handle} : IgnoresNumbering (strengthen handle literal) := by
  refine ignores_clause.bind fun old => ?_
  split
  · exact ignores_assignUnit.bind fun _ => ignores_removeClause
  · exact ignores_prove.bind fun _ => ignores_prove.bind fun _ => ignores_updateArena.bind
      fun _ => ignores_updateIndex.bind fun _ => ignores_count.bind fun _ => ignores_touch

theorem ignores_removeWithRecord {handle : Handle} {chosen : Literal} :
    IgnoresNumbering (removeWithRecord handle chosen) := by
  refine ignores_clause.bind fun removed => ?_
  split
  · exact ignores_removeClause
  · exact .bind (.modify fun _ => rfl) fun _ => ignores_removeClause

theorem ignores_compact : IgnoresNumbering compact := by
  refine .bind (fun engine => .done rfl) fun relocation => ?_
  exact ignores_updateIndex.bind fun _ => .bind (ignores_look fun _ => rfl) fun _ => ignores_tell.bind fun _ => .pure

/-- The graph is built from binary clauses and random numbers. -/
theorem ignores_implications : IgnoresNumbering implications := by
  intro engine
  have same : Implications.freeBinaries? engine.unnumbered.trail
      engine.unnumbered.arena.slots.toList =
      Implications.freeBinaries? engine.trail engine.arena.slots.toList := rfl
  change (implications engine.unnumbered).Alike (implications engine)
  unfold implications
  rw [same]
  cases Implications.freeBinaries? engine.trail engine.arena.slots.toList with
  | none => exact .stuck
  | some binaries =>
    have sameBuild : Implications.build engine.unnumbered.numVars binaries
        engine.unnumbered.random =
        Implications.build engine.numVars binaries engine.random := rfl
    dsimp only
    rw [sameBuild]
    cases Implications.build engine.numVars binaries engine.random with
    | done graph random => exact .done rfl
    | failed cause random => exact .failed rfl
    | stuck why => exact .stuck

end Engine

/-! ## Operations of a tool -/

namespace Work

variable {τ α : Type}

theorem ignores_modifyOwn {change : τ → τ} : IgnoresNumbering (modifyOwn change) :=
  fun _ => .done rfl

theorem ignores_budget : IgnoresNumbering (budget : Work τ Budget) := fun _ => .done rfl

theorem ignores_spend {steps : Nat} : IgnoresNumbering (spend steps : Work τ Bool) :=
  fun _ => .done rfl

theorem ignores_beginRun : IgnoresNumbering (beginRun : Work τ Nat) := fun _ => .done rfl

theorem ignores_startBudget {limit : UInt64} : IgnoresNumbering (startBudget limit : Work τ Unit) :=
  fun _ => .done rfl

theorem getEngine_bind (next : Engine → Work τ α) (state : Tool τ × Engine) :
    ((liftM (get : Run Engine Engine) : Work τ Engine) >>= next) state = next state.2 state := rfl

/-- A technique whose limit does not depend on the numbering. What it gives notice
of may depend on it. -/
theorem ignores_process {base : Settings → UInt64} {body : Work τ Unit}
    {notice : Nat → Engine → Budget → Engine → Notice}
    (same : ∀ settings : Settings, base { settings with renumbering := false } = base settings)
    (ignores : IgnoresNumbering body) : IgnoresNumbering (process base body notice) := by
  have limit (engine : Engine) : engine.stepLimit (base engine.settings) =
      engine.unnumbered.stepLimit (base engine.unnumbered.settings) :=
    congrArg engine.stepLimit (same engine.settings).symm
  intro state
  refine .bind (ignores_beginRun state) fun run first second alike => ?_
  have sameEngine : first.2.unnumbered = second.2.unnumbered := (Prod.mk.inj alike).2
  rw [getEngine_bind, getEngine_bind, limit first.2, limit second.2, sameEngine]
  refine .bind (ignores_startBudget.alike alike) fun _ _ _ alike => ?_
  refine .bind (ignores.attempt.alike alike) fun result _ _ alike => ?_
  refine .bind (ignores_budget.alike alike) fun budget first second alike => ?_
  -- The two notices may differ, so the operations of the engine are told apart here.
  have concluded : IgnoresNumbering (liftM (Engine.conclude result) : Work τ Status) :=
    .lift Engine.ignores_conclude
  rw [getEngine_bind, getEngine_bind]
  exact concluded.alike alike

end Work
end CnfSimplifier
