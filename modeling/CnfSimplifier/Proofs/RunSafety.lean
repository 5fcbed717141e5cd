import CnfSimplifier.Proofs.Emptying
import CnfSimplifier.Proofs.ToolSafety

/-!
# Runs that can lack nothing but names

A run goes from technique to technique, and between them it may compact the arena. The
handles that still wait in the tools are of the epoch that the compaction ends, so all of
them are carried over, and those that come out are of the epoch that it starts. Once the
formula is refuted nobody looks after the queues, but then there is no compaction before
the tools forget them.
-/
namespace CnfSimplifier

/-! ## Compactions -/

/-- A compaction leaves no clause that was not there. -/
theorem Engine.Ranged.compact {engine after : Engine} (ranged : engine.Ranged)
    (arena : after.arena = engine.arena.compact.2) (trail : after.trail = engine.trail) :
    after.Ranged := by
  intro slot clause found literal inside
  rw [arena] at found
  obtain ⟨old, inOld⟩ := Array.mem_iff_getElem?.1 (Array.mem_filter.1 (Array.mem_of_getElem? found)).1
  unfold Owns
  rw [trail]
  exact ranged old clause inOld literal inside

namespace Relocation

variable {relocation : Relocation}

theorem epoch_of_fate {handle moved : Handle} (fate : relocation.fate handle = .moved moved) :
    moved.epoch = relocation.toEpoch := by
  unfold Relocation.fate at fate
  split at fate
  · split at fate
    · split at fate <;> cases fate
      rfl
    · cases fate
  · cases fate

/-- What was carried over is of the new epoch. -/
theorem epoch_of_carry {handles carried : List Handle} (carries : relocation.carry handles = some carried) :
    ∀ handle ∈ carried, handle.epoch = relocation.toEpoch := by
  induction handles generalizing carried with
  | nil =>
    cases carries
    simp
  | cons handle rest ih =>
    unfold carry at carries
    split at carries
    next moved fate =>
      obtain ⟨others, carriesRest, rfl⟩ := Option.map_eq_some_iff.1 carries
      exact List.forall_mem_cons.2 ⟨epoch_of_fate fate, ih carriesRest⟩
    next => exact ih carries
    next => cases carries

end Relocation

/-- A queue without stale handles is carried over, and it has none afterwards. -/
theorem Subsumer.exists_relocate {relocation : Relocation} {subsumer : Subsumer}
    (current : ∀ handle ∈ subsumer.queue, handle.epoch = relocation.fromEpoch) :
    ∃ after, subsumer.relocate relocation = some after ∧
      ∀ handle ∈ after.queue, handle.epoch = relocation.toEpoch := by
  obtain ⟨queue, carries⟩ := Relocation.exists_carry current
  exact ⟨{ subsumer with queue := queue }, by simp [relocate, carries], Relocation.epoch_of_carry carries⟩

namespace Toolbox

variable {tools : Toolbox} {engine after : Engine} {status : Status}

/-- Tools whose handles are good are carried over a compaction, and their handles are
good afterwards. -/
theorem Current.exists_relocate {relocation : Relocation}
    (current : tools.Current relocation.fromEpoch) :
    ∃ later, tools.relocate relocation = some later ∧ later.Current relocation.toEpoch ∧
      later.elimination.own.heap = tools.elimination.own.heap := by
  obtain ⟨subsumer, subsumption, freshSubsumption⟩ := Subsumer.exists_relocate current.subsumption
  obtain ⟨helper, elimination, freshElimination⟩ := Subsumer.exists_relocate current.elimination
  obtain ⟨own, batch, freshBatch⟩ := Subsumer.exists_relocate current.batch
  simp only [relocate, Eliminator.relocate, subsumption, elimination, batch, Option.bind_eq_bind,
    Option.bind_some, Option.pure_def]
  exact ⟨_, rfl, ⟨freshSubsumption, freshElimination, freshBatch⟩, rfl⟩

theorem Idle.current (idle : tools.Idle) (epoch : UInt32) : tools.Current epoch := by
  constructor
  · simp [idle.subsumption]
  · simp [idle.elimination]
  · simp [idle.batch]

/-- Budgets are no tables. -/
theorem Leaves.modifyBudget (leaves : Leaves status (tools, engine)) (change : Budget → Budget)
    (technique : Technique) : Leaves status (tools.modifyBudget change technique, engine) := by
  obtain ⟨⟨ranged, head, heap⟩, current⟩ := leaves
  cases technique <;>
    exact ⟨⟨ranged, head, heap⟩, fun isOpen => ⟨(current isOpen).subsumption,
      (current isOpen).elimination, (current isOpen).batch⟩⟩

/-- Of the engine only the clauses and the trail matter. -/
theorem Leaves.of_aside (leaves : Leaves status (tools, engine)) (arena : after.arena = engine.arena)
    (trail : after.trail = engine.trail) : Leaves status (tools, after) :=
  ⟨leaves.1.of_aside arena trail, fun isOpen => by
    change tools.Current after.arena.epoch
    rw [arena]
    exact leaves.2 isOpen⟩

/-- Tools over some variables can forget everything. -/
theorem exists_forgetAll {count : Nat} (sized : tools.elimination.own.heap.Sized count)
    (nonempty : 0 < count) :
    ∃ later, tools.forgetAll = some later ∧ later.elimination.own.heap.Sized count := by
  obtain ⟨heap, cleared⟩ := VarHeap.exists_clear (sized.places ▸ nonempty)
  simp only [forgetAll, passes, List.foldlM_cons, List.foldlM_nil, forget, reset,
    Eliminator.reset, cleared, Option.bind_eq_bind, Option.bind_some, Option.pure_def]
  exact ⟨_, rfl, (sized.ranges_clear cleared).sized⟩

end Toolbox

namespace Simplifier

variable {simplifier before : Simplifier} {α : Type}

/-- Work on the engine alone. -/
theorem meets_onEngine {admitted : Breakdown → Prop} {body : Run Engine α}
    {done : α → Simplifier → Prop} {failed : Error → Simplifier → Prop}
    (meets : body.Meets admitted simplifier.engine
      (fun value engine => done value { simplifier with engine := engine })
      fun cause engine => failed cause { simplifier with engine := engine }) :
    (liftM body : Run Simplifier α).Meets admitted simplifier done failed :=
  .within (lift_apply body simplifier) meets

/-- Work on the engine with the tools. -/
theorem meets_onTools {admitted : Breakdown → Prop} {body : Run (Toolbox × Engine) α}
    {done : α → Simplifier → Prop} {failed : Error → Simplifier → Prop}
    (meets : body.Meets admitted (simplifier.tools, simplifier.engine)
      (fun value part => done value { simplifier with tools := part.1, engine := part.2 })
      fun cause part => failed cause { simplifier with tools := part.1, engine := part.2 }) :
    (onTools body).Meets admitted simplifier done failed :=
  .within (onTools_apply body simplifier) meets

theorem updateTools_of_eq_some {change : Toolbox → Option Toolbox} {tools : Toolbox}
    (changed : change simplifier.tools = some tools) :
    updateTools change simplifier = .done () { simplifier with tools := tools } := by
  simp [updateTools, Run.update, changed]

/-- What the next technique needs. -/
structure Poised (simplifier : Simplifier) : Prop where
  spans : simplifier.tools.Spans simplifier.engine
  current : simplifier.tools.Current simplifier.engine.arena.epoch

/-- What a part of a run leaves. -/
def Leaves (status : Status) (after : Simplifier) : Prop :=
  Toolbox.Leaves status (after.tools, after.engine)

theorem Leaves.poised {status : Status} (leaves : simplifier.Leaves status) (isOpen : status ≠ .unsat) :
    simplifier.Poised := ⟨leaves.1, leaves.2 isOpen⟩

theorem Poised.leaves (poised : simplifier.Poised) (status : Status) : simplifier.Leaves status :=
  ⟨poised.spans, fun _ => poised.current⟩

/-- A compaction carries over whatever waits in the tools. -/
theorem collectGarbage_poised (inStep : simplifier.engine.InStep) (poised : simplifier.Poised) :
    collectGarbage.Returns simplifier fun _ after => simplifier.Tidies after ∧ after.Poised := by
  suffices collects : collectGarbage.Returns simplifier fun _ after => after.Poised by
    have tidies : collectGarbage.Ends simplifier _ fun _ _ => False := collectGarbage_ends
    exact (collects.and_ends tidies).imp fun _ _ held => held.symm
  unfold collectGarbage
  refine .step rfl ?_
  dsimp only
  split
  · obtain ⟨_, engine, compacted, rfl, arena, trail⟩ := Engine.compact_returns inStep
    obtain ⟨tools, relocated, current, heap⟩ :=
      @Toolbox.Current.exists_relocate _ simplifier.engine.arena.compact.1 poised.current
    refine .step (lift_of_done compacted) (.of_done (updateTools_of_eq_some relocated) ⟨?_, ?_⟩)
    · exact ⟨poised.spans.ranged.compact arena trail, trail ▸ poised.spans.head,
        heap ▸ trail ▸ poised.spans.heap⟩
    · change tools.Current engine.arena.epoch
      rw [arena]
      exact current
  · exact .pure poised

/-! ## Parts of a run -/

section Parts

variable [Realm] {inprocessing : Bool}

/-- A technique that runs, or sits the round out, can lack nothing but names. -/
theorem runTechnique_fares {technique : Technique} (other : technique ≠ .renumbering)
    (fit : simplifier.engine.Fit) (poised : simplifier.Poised) :
    (runTechnique technique).Fares simplifier
      (fun status after => after.Leaves (status.getD .unknown)) fun _ _ => True := by
  unfold runTechnique
  refine .step rfl ?_
  rcases (simplifier.tools.budget technique).mayRun with ⟨mayRun, budget⟩
  refine .step (updateTools_of_eq_some rfl) ?_
  have budgeted := (poised.leaves .unknown).modifyBudget (fun _ => budget) technique
  cases mayRun with
  | false => exact .step rfl (.pure (budgeted.of_aside rfl rfl))
  | true =>
    refine .step rfl (.seq (meets_onTools ?_))
    refine (Toolbox.process_fares other fit budgeted.1 (budgeted.2 (by decide))).imp ?_
      fun _ _ => id
    rintro status ⟨tools, engine⟩ leaves
    refine .step rfl (.step (updateTools_of_eq_some rfl) (.step rfl (.step rfl (.pure ?_))))
    exact (leaves.modifyBudget _ technique).of_aside rfl rfl

/-- The stages of a pass can lack nothing but names. -/
theorem runStages_fares {pass : Nat} (stages : List Stage) (fit : simplifier.engine.Fit)
    (poised : simplifier.Poised) :
    (runStages pass stages).Fares simplifier (fun ended after => after.Leaves ended.status)
      fun _ _ => True := by
  induction stages generalizing simplifier with
  | nil => exact .pure (poised.leaves _)
  | cons stage rest ih =>
    unfold runStages
    refine .step rfl ?_
    dsimp only
    split
    · exact .step rfl (.pure ((poised.leaves .unknown).of_aside rfl rfl))
    split
    · exact ih fit poised
    next technique found =>
      have other := Stage.technique?_ne_renumbering found
      refine ((runTechnique_fares other fit poised).and_done (runTechnique_ends other fit)).bind ?_
      rintro status after ⟨leaves, reaches⟩
      split
      · exact .pure leaves
      · exact .pure leaves
      next notUnsat _ =>
        have isOpen : status.getD .unknown ≠ .unsat := by
          cases status with
          | none => decide
          | some status => exact fun closed => notUnsat (congrArg some closed)
        have leads := reaches.leads isOpen
        refine .step rfl ?_
        split
        · exact .pure ((leaves.poised isOpen).leaves _)
        refine (Run.Meets.of_returns
          (collectGarbage_poised leads.inStep (leaves.poised isOpen))).bind ?_
        rintro _ tidy ⟨tidies, poised⟩
        exact ih ((leads.trans (tidies.leads leads.inStep)).fit fit) poised

/-- Passes can lack nothing but names. -/
theorem runPasses_fares (remaining pass : Nat) (fit : simplifier.engine.Fit)
    (poised : simplifier.Poised) :
    (runPasses remaining pass).Fares simplifier (fun status after => after.Leaves status)
      fun _ _ => True := by
  induction remaining generalizing pass simplifier with
  | zero => exact .pure (poised.leaves _)
  | succ remaining ih =>
    unfold runPasses
    refine .step rfl
      (((runStages_fares stages fit poised).and_done (runStages_ends stages fit)).bind ?_)
    rintro ended after ⟨leaves, reaches⟩
    cases ended with
    | stopped status => exact .pure leaves
    | complete =>
      have told : ∀ notice, Leaves .unknown { after with
          engine := { after.engine with notices := after.engine.notices.push notice } } :=
        fun _ => leaves.of_aside rfl rfl
      refine .step rfl (.step rfl ?_)
      split
      · exact .pure (told _)
      · have fitNow := (reaches.leads (by decide)).fit fit
        exact ih (pass + 1) (fitNow.tell _) ((told _).poised (by decide))

/-! ## Whole runs -/

/-- Numbering the variables can lack nothing but names. -/
theorem number_fares (fit : before.engine.Fit) {status : Status}
    (reaches : before.Reaches status simplifier)
    (spans : simplifier.tools.Spans simplifier.engine) :
    (number inprocessing).Fares simplifier (fun _ after => after.tools.Spans after.engine)
      fun _ _ => True := by
  refine .step rfl ?_
  split
  next asked =>
    have isOpen : simplifier.engine.unsat = false := by
      simp only [Bool.and_eq_true, Bool.not_eq_true'] at asked
      exact asked.1.2
    rcases reaches.decides with ⟨_, leads, _⟩ | ⟨_, refutes⟩
    · refine .seq (meets_onTools ?_)
      refine (Toolbox.process_renumbering_fares (leads.sound fit.toSound) spans).imp ?_ fun _ _ => id
      exact fun _ _ spans => .pure spans
    · exact absurd (isOpen.symm.trans refutes.unsat) (by decide)
  · exact .pure spans

/-- A run is finished, if there is room for numbers. -/
theorem finish_fares {status : Status} (isOpen : status ≠ .unsat) (fit : before.engine.Fit)
    (reaches : before.Reaches status simplifier) (poised : simplifier.Poised) :
    (finish inprocessing).Fares simplifier (fun _ after => after.tools.Spans after.engine)
      fun _ _ => True := by
  unfold finish
  refine .step rfl ?_
  dsimp only
  split
  · have fitNow := (reaches.leads isOpen).fit fit
    have other : Technique.twoSat ≠ .renumbering := by decide
    have fares : (Toolbox.process .twoSat).Fares (simplifier.tools, simplifier.engine) _ _ :=
      Toolbox.process_fares other fitNow poised.spans poised.current
    refine .seq (meets_onTools ((fares.and_done
      (Toolbox.process_ends .twoSat other fitNow.toSound nofun)).imp ?_ fun _ _ => id))
    rintro last ⟨tools, engine⟩ ⟨leaves, concludes, renumbering⟩
    have further : simplifier.Reaches last { simplifier with tools := tools, engine := engine } :=
      ⟨concludes.of_strict fit.strict, congrArg Tool.own renumbering⟩
    exact number_fares fit (reaches.trans isOpen further) leaves.1
  · exact number_fares fit reaches poised.spans

/-- Whatever came of the formula, the parts of the engine are in step. -/
theorem inStep_of_ended (ended : before.Simplified simplifier ∨ before.Refuted simplifier) :
    simplifier.engine.InStep := by
  rcases ended with ⟨leads, _⟩ | ⟨refutes, _⟩
  · exact leads.inStep
  · exact refutes.goes.inStep.of_same rfl rfl rfl rfl

omit [Realm] in
/-- At the end of a run nothing waits in the tools any more, so whatever came of the formula,
closing can lack nothing. -/
theorem close_fares (inStep : simplifier.engine.InStep)
    (spans : simplifier.tools.Spans simplifier.engine) :
    close.Fares simplifier (fun _ after => after.tools.Spans after.engine) fun _ _ => True := by
  unfold close
  obtain ⟨tools, forgot, heap⟩ := Toolbox.exists_forgetAll spans.heap inStep.trail.nonempty
  have poised : Poised { simplifier with tools := tools } :=
    ⟨⟨spans.ranged, spans.head, heap⟩, (Toolbox.idle_of_forgetAll forgot).current _⟩
  refine .step (updateTools_of_eq_some forgot) ?_
  refine .bind (.of_returns (collectGarbage_poised inStep poised)) fun _ tidy ⟨_, tidied⟩ => ?_
  refine .step rfl (.step rfl (.step rfl (.pure ?_)))
  exact tidied.spans.of_aside rfl rfl

/-- A run from a fit state can lack nothing but names. -/
theorem run_fares (fit : simplifier.engine.Fit) (poised : simplifier.Poised) :
    (run inprocessing).Fares simplifier (fun _ after => after.tools.Spans after.engine)
      fun _ _ => True := by
  unfold run
  refine .step rfl (.step rfl ?_)
  dsimp only
  rw [fit.isOpen, fit.intact]
  refine .step rfl ?_
  have leads : ∀ notices, simplifier.engine.Leads .removal { simplifier.engine with
      inprocessing := inprocessing, notices := notices } := fun _ =>
    .of_same fit.toSound rfl rfl rfl rfl rfl rfl rfl rfl rfl
  have atRoot := Engine.cancelToRoot_of_sound ((leads simplifier.engine.notices).sound fit.toSound)
  refine .step (lift_of_done atRoot) (.step rfl (.step rfl ?_))
  have begun : ∀ notices, Poised { simplifier with
      engine := { simplifier.engine with inprocessing := inprocessing, notices := notices }
      runs := simplifier.runs + 1 } :=
    fun _ => ⟨poised.spans.of_aside rfl rfl, poised.current⟩
  refine .bind ((runPasses_fares _ 1 ((leads _).fit fit) (begun _)).and_done
    (runPasses_ends _ 1 ((leads _).fit fit))) fun status after ⟨leaves, reaches⟩ => ?_
  have whole : simplifier.Reaches status after :=
    ⟨(leads _).then_decides reaches.decides, reaches.numbering⟩
  split
  next isOpen =>
    refine .bind ((finish_fares isOpen fit whole (leaves.poised isOpen)).and_done
      (finish_ends isOpen fit whole)) fun _ last ⟨spans, ended⟩ => ?_
    exact close_fares (inStep_of_ended ended) spans
  next closed =>
    rcases whole.decides with ⟨isOpen, _⟩ | ⟨_, refutes⟩
    · exact absurd isOpen closed
    · exact close_fares (inStep_of_ended (.inr ⟨refutes, whole.numbering⟩)) leaves.1

end Parts

end Simplifier

end CnfSimplifier
