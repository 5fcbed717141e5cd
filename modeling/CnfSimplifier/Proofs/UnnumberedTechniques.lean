import CnfSimplifier.Proofs.BatchElimination
import CnfSimplifier.Proofs.ComposedTechniques

/-!
# Techniques take no notice of the numbering

No deed of a technique takes notice of the numbering, so what is made of deeds goes the same
way whether or not a numbering is wanted. Where a technique looks at the settings, it looks at
limits and switches of its own.

Probing, the loop of elimination and the pass of batch elimination are more than that: they
work on the trail or on the batch, or go on as long as there is progress. They are gone
through here.
-/
namespace CnfSimplifier

open Engine IgnoresNumbering

variable {α : Type}

/-- Retiring a variable takes no notice of the numbering. -/
theorem Equivalence.ignores_retire {literal representative : Literal} :
    IgnoresNumbering (retire literal representative) :=
  .bind (.modify fun _ => rfl) fun _ => .bind (.modify fun _ => rfl) fun _ =>
    ignores_handle.bind fun _ => ignores_count

instance : MaySubstitute fun _ => IgnoresNumbering where
  fail _ := .fail
  stop _ := .stop
  prove _ := ignores_prove
  count _ := ignores_count
  removeClause _ := ignores_removeClause
  removeWithRecord _ _ := ignores_removeWithRecord
  markClause _ _ := ignores_markClause
  storeClause _ _ _ := ignores_storeClause
  eliminated _ := ignores_handle
  apply := .modify fun _ => rfl
  implications := ignores_implications
  strengthen _ _ := ignores_strengthen
  makeIrredundant _ := ignores_updateArena
  assignUnit _ := ignores_assignUnit
  setPhase _ _ := ignores_updateTrail
  retire _ _ := Equivalence.ignores_retire

/-- Applying the root literals takes no notice of the numbering. -/
theorem Engine.ignores_propagateUnits : IgnoresNumbering propagateUnits :=
  made_propagateUnits.ignores

/-! ## Unit propagation and binary clauses -/

/-- Unit propagation takes no notice of the numbering. -/
theorem Units.ignores_process : IgnoresNumbering Units.process :=
  Work.ignores_beginRun.bind fun _ => .step ignores_updateTrail fun _ =>
    .step (ignores_look fun _ => rfl) fun _ => .step ignores_propagateUnits.attempt fun _ =>
    .step (ignores_look fun _ => rfl) fun _ => .step ignores_tell fun _ => .lift ignores_conclude

/-- Solving the binary clauses takes no notice of the numbering. -/
theorem TwoSat.ignores_process : IgnoresNumbering TwoSat.process :=
  Work.ignores_process (fun _ => rfl) TwoSat.made_run.ignores

/-! ## Probing -/

namespace Probing

/-- Announcing what was propagated. -/
theorem ignores_announce {literals : List Literal} : IgnoresNumbering (announce literals) := by
  induction literals with
  | nil => exact .pure
  | cons literal rest ih =>
    exact ignores_prove.bind fun _ => ignores_count.bind fun _ => ignores_handle.bind fun _ => ih

/-- Settling the root before a probe. -/
theorem ignores_settleRoot : IgnoresNumbering settleRoot := by
  refine ignores_propagateUnits.bind fun _ => .bind (ignores_look fun _ => rfl) fun before =>
    ignores_onTrail.bind fun _ => .bind (ignores_look fun _ => rfl) fun new => ?_
  split
  · exact .pure
  · exact ignores_announce.bind fun _ => ignores_propagateUnits

/-- A probe works on the trail, which has names only. -/
theorem ignores_probe {literal : Literal} : IgnoresNumbering (probe literal) := by
  refine .step ignores_settleRoot fun _ => .step (ignores_look fun _ => rfl) fun start =>
    .step ignores_updateTrail fun _ => .step ignores_onTrail fun conflict =>
    .step (ignores_look fun _ => rfl) fun implied => Work.ignores_spend.bind fun _ =>
    .step ignores_updateTrail fun _ => ?_
  split
  · exact made_refute.ignores
  · exact .pure

/-- Probing both literals of a variable. -/
theorem ignores_probeVar {name : Nat} : IgnoresNumbering (probeVar name) := by
  refine ignores_probe.bind fun fromPositive => ?_
  split
  · exact .pure
  refine ignores_probe.bind fun fromNegative => ?_
  split
  · exact .pure
  · exact made_necessary.ignores

/-- Probing the variables of a list. -/
theorem ignores_probeAll {names : List Nat} : IgnoresNumbering (probeAll names) := by
  induction names with
  | nil => exact .pure
  | cons name rest ih =>
    refine Work.ignores_spend.bind fun goOn => ?_
    split
    · refine .bind (.read fun _ => rfl) fun value => ?_
      split
      · exact ignores_probeVar.bind fun _ => ih
      · exact ih
    · exact .pure

/-- Probing as far as the limits allow. -/
theorem ignores_run : IgnoresNumbering run :=
  .step ignores_updateTrail fun _ => .step ignores_propagateUnits fun _ =>
    .step ignores_implications fun _ => .step (ignores_look fun _ => rfl) fun _ =>
    .bind .access fun _ => ignores_probeAll

/-- Probing takes no notice of the numbering. -/
theorem ignores_process : IgnoresNumbering process := by
  refine Work.ignores_process (fun _ => rfl) ?_
  refine ignores_run.attempt.bind fun result => .step ignores_updateTrail fun _ => ?_
  split
  · exact .pure
  · exact .fail

end Probing

/-! ## Equivalent literals and subsumption -/

/-- Substitution takes no notice of the numbering. -/
theorem Equivalence.ignores_process : IgnoresNumbering Equivalence.process :=
  Work.ignores_process (fun _ => rfl) Equivalence.made_run.ignores

/-- Subsumption takes no notice of the numbering. -/
theorem Subsumer.ignores_process : IgnoresNumbering Subsumer.process :=
  Work.ignores_process (fun _ => rfl) (Work.ignores_modifyOwn.bind fun _ => Subsumer.made_run.ignores)

/-! ## Elimination -/

namespace Eliminator

/-- Progress is measured by what the bare state has as well. -/
theorem progress_eq {first second : Tool Eliminator × Engine}
    (same : unnumbered first = unnumbered second) : progress first = progress second := by
  change progress (unnumbered first) = progress (unnumbered second)
  rw [same]

/-- Turns that go alike make the same progress, so the loops go alike. -/
theorem ignores_loop {reached : Nat × Nat × Nat} : IgnoresNumbering (loop reached) := by
  suffices alike : ∀ state first : Tool Eliminator × Engine, unnumbered first = unnumbered state →
      (loop reached first).Alike (loop reached state) from
    fun state => alike state _ (HasNumbering.unnumbered_twice state)
  intro state
  refine loop_induction (motive := fun reached state outcome => ∀ first : Tool Eliminator × Engine,
    unnumbered first = unnumbered state → (loop reached first).Alike outcome)
    (fun reached state after outcome stepped further ih first same => ?again)
    (fun reached state after stepped stalled first same => ?stalls)
    (fun reached state after stepped first same => ?ends)
    (fun reached state cause after stepped first same => ?fails)
    (fun reached state why stepped first same => ?stops) reached state
  all_goals
    have here := made_step.ignores.alike same
    rw [stepped] at here
    rw [loop.eq_def]
    generalize step first = outcome at here ⊢
  case again =>
    cases here with
    | @done _ last _ same =>
      change Outcome.Alike (if _ : Further (progress last) reached then _ else _) _
      rw [progress_eq same, dif_pos further]
      exact ih last same
  case stalls =>
    cases here with
    | @done _ last _ same =>
      change Outcome.Alike (if _ : Further (progress last) reached then _ else _) _
      rw [progress_eq same, dif_neg stalled]
      exact .stuck
  case ends =>
    cases here with
    | done same => exact .done same
  case fails =>
    cases here with
    | failed same => exact .failed same
  case stops =>
    cases here with
    | stuck => exact .stuck

/-- Eliminating all variables of the heap. -/
theorem ignores_eliminateAll : IgnoresNumbering eliminateAll := fun state => ignores_loop state

/-- Elimination as far as the limits allow. -/
theorem ignores_run : IgnoresNumbering run :=
  .step ignores_propagateUnits fun _ => .step (ignores_look fun _ => rfl) fun _ =>
    made_onHeap.ignores.bind fun _ => Work.ignores_modifyOwn.bind fun _ =>
    (IgnoresNumbering.forM (fun _ => made_offer.ignores) _).bind fun _ =>
    ignores_eliminateAll.bind fun _ => made_onHeap.ignores

/-- Elimination takes no notice of the numbering. -/
theorem ignores_process : IgnoresNumbering process :=
  Work.ignores_process (fun _ => rfl) (.step (ignores_look fun _ => rfl) fun _ =>
    (made_onSubsumer Subsumer.made_start).ignores.bind fun _ => ignores_run)

end Eliminator

/-! ## Batch elimination -/

namespace Batch

variable {pivot : Nat}

theorem ignores_spend {steps : Nat} : IgnoresNumbering (spend steps) := fun _ => .done rfl

theorem ignores_modifyBatch {change : Batch → Batch} : IgnoresNumbering (modifyBatch change) :=
  fun _ => .done rfl

theorem ignores_getBatch : IgnoresNumbering getBatch := fun _ => .done rfl

/-- Looking for blocked clauses. -/
theorem ignores_planBlocked {literal : Literal} {partners : List Handle} {remaining : Nat}
    {side : Array Handle} {blocked : List (Handle × Literal)} :
    IgnoresNumbering (planBlocked literal partners remaining side blocked) := by
  induction remaining generalizing side blocked with
  | zero => exact .pure
  | succ remaining ih =>
    refine .bind .access fun handle => .step ignores_clause fun clause =>
      ignores_spend.bind fun goOn => ?_
    split
    case isFalse => exact .pure
    refine .step (ignores_look fun _ => rfl) fun arena => .bind .access fun isBlocked => ?_
    split
    · exact ih
    · exact ih

/-- Resolving one clause with the others. -/
theorem ignores_resolveAgainst {old pivot : Nat} {literals : List Literal} {others : List Handle}
    {resolvents : Array (List Literal)} :
    IgnoresNumbering (resolveAgainst old pivot literals others resolvents) := by
  induction others generalizing resolvents with
  | nil => exact .pure
  | cons other rest ih =>
    refine .step ignores_clause fun clause => ignores_spend.bind fun goOn => ?_
    split
    case isFalse => exact .pure
    refine .afterLook (fun _ => rfl) fun settings => ?_
    split
    · exact ih
    dsimp only
    split
    · exact .pure
    · exact ih

/-- Resolving all clauses with the others. -/
theorem ignores_resolveAll {old pivot : Nat} {negative positive : List Handle}
    {resolvents : Array (List Literal)} :
    IgnoresNumbering (resolveAll old pivot negative positive resolvents) := by
  induction positive generalizing resolvents with
  | nil => exact .pure
  | cons handle rest ih =>
    refine .step ignores_clause fun clause => ignores_resolveAgainst.bind fun built => ?_
    split
    · exact .pure
    · exact ih

/-- Planning to eliminate a variable. -/
theorem ignores_planElimination {plan : EliminationPlan} :
    IgnoresNumbering (planElimination pivot plan) := by
  refine ignores_resolveAll.bind fun built => ?_
  split
  · exact .pure
  refine ignores_getBatch.bind fun batch => .afterLook (fun _ => rfl) fun settings => ?_
  split
  · exact ignores_modifyBatch.bind fun _ => .pure
  · exact .pure

/-- Planning to remove blocked clauses on both sides. -/
theorem ignores_planBothSides {withPositive withNegative : List Handle} {plan : EliminationPlan} :
    IgnoresNumbering (planBothSides pivot withPositive withNegative plan) := by
  refine ignores_planBlocked.bind fun planned => ?_
  split
  · exact .pure
  refine ignores_planBlocked.bind fun planned => ?_
  split
  · exact .pure
  · exact .pure

/-- After the blocked clauses are set aside, only the plan itself decides. -/
theorem ignores_settlePlan (afterBlocked : Option EliminationPlan) :
    IgnoresNumbering (
      match afterBlocked with
      | none => Pure.pure none
      | some plan => do
        let plan ← planElimination pivot plan
        if (plan.blocked.isEmpty && !plan.eliminate) = true then Pure.pure none
        else Pure.pure (some plan) : Run (Batch × Engine) (Option EliminationPlan)) := by
  split
  · exact .pure
  refine ignores_planElimination.bind fun plan => ?_
  split
  · exact .pure
  · exact .pure

/-- A plan depends on clauses, limits and switches. -/
theorem ignores_plan : IgnoresNumbering (plan pivot) := by
  refine .step Eliminator.made_clausesWith.ignores fun (positive, positiveRedundant) =>
    .step Eliminator.made_clausesWith.ignores fun (negative, negativeRedundant) =>
    .step (ignores_look fun _ => rfl) fun arena => .step ignores_occurrences fun listedPositive =>
    .step ignores_occurrences fun listedNegative => .afterLook (fun _ => rfl) fun settings => ?_
  split
  · exact .pure
  dsimp only
  split
  · exact ignores_planBothSides.bind ignores_settlePlan
  · exact .bind .pure ignores_settlePlan

theorem ignores_recordClause {chosen : Literal} {handle : Handle} :
    IgnoresNumbering (recordClause chosen handle) :=
  ignores_clause.bind fun _ => .modify fun _ => rfl

/-- Storing a resolvent of a plan. -/
theorem ignores_storeResolvent {literals : List Literal} :
    IgnoresNumbering (storeResolvent literals) :=
  .step ignores_prove fun _ => .step ignores_insertClause fun _ => .step ignores_clause fun _ =>
    .step ignores_updateIndex fun _ => ignores_modifyBatch

theorem ignores_removeLazily {handle : Handle} : IgnoresNumbering (removeLazily handle) :=
  ignores_clause.bind fun _ => ignores_updateIndex.bind fun _ => ignores_updateArena

/-- Carrying a plan out. -/
theorem ignores_commit {plan : EliminationPlan} : IgnoresNumbering (commit pivot plan) := by
  have removes (handles : List Handle) : IgnoresNumbering (
      handles.forM fun handle => (removeLazily handle : Run (Batch × Engine) Unit)) :=
    .forM (fun _ => .lift ignores_removeLazily) _
  have records (chosen : Literal) (handles : List Handle) : IgnoresNumbering (
      handles.forM fun handle => (recordClause chosen handle : Run (Batch × Engine) Unit)) :=
    .forM (fun _ => .lift ignores_recordClause) _
  refine (IgnoresNumbering.forM (fun _ => .lift ignores_recordClause) _).bind fun _ => ?_
  dsimp only
  split
  · exact (IgnoresNumbering.forM (fun _ => ignores_storeResolvent) _).bind fun _ =>
      (records _ _).bind fun _ => (records _ _).bind fun _ => (removes _).bind fun _ =>
      ignores_modifyBatch.bind fun _ => ignores_modifyBatch
  · exact (removes _).bind fun _ => ignores_modifyBatch.bind fun _ => .pure

/-- Putting a variable off. -/
theorem ignores_putOff {name tries : Nat} {queue : List (Nat × Nat)} :
    IgnoresNumbering (putOff name tries queue) := by
  refine .afterLook (fun _ => rfl) fun settings => ?_
  split
  · exact ignores_modifyBatch.bind fun _ => .pure
  · exact ignores_modifyBatch.bind fun _ => .pure

/-- Planning and carrying out. -/
theorem ignores_attempt : IgnoresNumbering (attempt pivot) := by
  refine ignores_plan.bind fun planned => ?_
  split
  · exact .pure
  · exact ignores_commit

/-- A turn goes as its move says. -/
theorem ignores_turn {move : Move} {queue : List (Nat × Nat)} : IgnoresNumbering (turn move queue) := by
  refine ignores_modifyBatch.bind fun _ => ignores_spend.bind fun goOn => ?_
  split
  case isFalse => exact .pure
  split
  · exact .pure
  refine ignores_getBatch.bind fun batch => .bind .access fun removable => ?_
  split
  case isFalse => exact .pure
  split
  · exact ignores_putOff.bind fun _ => .pure
  · exact ignores_attempt.bind fun _ => .pure

/-- A queue is served as the moves say. -/
theorem ignores_serve {moves : List Move} {queue : List (Nat × Nat)} :
    IgnoresNumbering (serve moves queue) := by
  induction moves generalizing queue with
  | nil => exact .pure
  | cons move moves ih =>
    refine ignores_turn.bind fun left => ?_
    split
    · exact .pure
    · exact ih

end Batch

namespace BatchEliminator

/-- Which variables may go has nothing to do with the numbering. -/
theorem removableVars?_unnumbered (engine : Engine) (names : List Nat) :
    removableVars? (HasNumbering.unnumbered engine) names = removableVars? engine names := by
  induction names with
  | nil => rfl
  | cons name rest ih =>
    unfold removableVars?
    simp only [ih]
    rfl

/-- A pass over the queue. -/
theorem ignores_pass {queue : List Nat} {removable : Array Bool} :
    IgnoresNumbering (pass queue removable) := by
  rintro ⟨tool, engine⟩
  rw [pass_apply, show unnumbered (tool, engine) = (tool, engine.unnumbered) from rfl, pass_apply]
  have serves : IgnoresNumbering (do
      Batch.serve (engine.settings.moves tool.runs ++ List.replicate (queue.length + 1) ({} : Move))
        (queue.map fun name => (name, 0))
      Batch.getBatch) := Batch.ignores_serve.bind fun _ => Batch.ignores_getBatch
  refine Outcome.Alike.mapState (serves ({ removable := removable, limit := tool.budget.limit },
    engine)) fun _ _ same => ?_
  exact congrArg (Prod.mk tool) (Prod.mk.inj same).2

theorem ignores_charge {steps : UInt64} : IgnoresNumbering (charge steps) := fun _ => .done rfl

theorem ignores_reportDeleted {handle : Handle} : IgnoresNumbering (reportDeleted handle) :=
  ignores_clause.bind fun _ => ignores_prove.bind fun _ => ignores_touch

theorem ignores_reportEliminated {name : Nat} : IgnoresNumbering (reportEliminated name) :=
  ignores_handle.bind fun _ => ignores_count

/-- Taking stock of a pass. -/
theorem ignores_takeStock {batch : Batch} : IgnoresNumbering (takeStock batch) :=
  .bind (.modify fun _ => rfl) fun _ => ignores_count.bind fun _ =>
    (IgnoresNumbering.forM (fun _ => ignores_reportDeleted) _).bind fun _ =>
    .forM (fun _ => ignores_reportEliminated) _

/-- A pass, from the queue to the stock. -/
theorem ignores_sweep : IgnoresNumbering sweep := by
  refine .step ignores_propagateUnits fun _ => .step (.modify fun _ => rfl) fun _ =>
    .afterEngine (fun engine => ?_) fun engine => ?_
  · rw [removableVars?_unnumbered]
    rfl
  · exact .bind .access fun counted => ignores_pass.bind fun batch => ignores_charge.bind fun _ =>
      .step ignores_takeStock fun _ => (made_onSubsumer Subsumer.made_start).ignores.bind fun _ => .pure

/-- Batch elimination as far as the limits allow. -/
theorem ignores_run : IgnoresNumbering run := ignores_sweep.bind fun _ => (made_tidy _).ignores

/-- Batch elimination takes no notice of the numbering. -/
theorem ignores_process : IgnoresNumbering process := Work.ignores_process (fun _ => rfl) ignores_run

end BatchEliminator

/-! ## Blocked clauses -/

/-- Removing blocked clauses takes no notice of the numbering. -/
theorem BlockedQueue.ignores_process : IgnoresNumbering BlockedQueue.process := by
  refine Work.ignores_process (fun _ => rfl) (made_run.ignores.attempt.bind fun result =>
    Work.ignores_modifyOwn.bind fun _ => ?_)
  split
  · exact .pure
  · exact .fail

end CnfSimplifier
