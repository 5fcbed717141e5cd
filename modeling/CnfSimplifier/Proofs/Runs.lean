import CnfSimplifier.Proofs.BatchElimination
import CnfSimplifier.Simplifier
import CnfSimplifier.Proofs.Equivalence
import CnfSimplifier.Proofs.Numbering
import CnfSimplifier.Proofs.Probing
import CnfSimplifier.Proofs.ComposedTechniques
import CnfSimplifier.Proofs.TwoSat

/-!
# Whole runs

A run from a fit engine comes to a conclusion: the formula went over to another
one by steps, or it was refuted. The numbering of the variables stays, or the run
built one, and then it fits what is left of the formula.
-/
namespace CnfSimplifier

/-! ## Work on parts of a simplifier -/

namespace Toolbox

variable {τ α : Type} {state : Toolbox × Engine} {tools after : Toolbox}

/-- How work with one tool of the box ends. -/
theorem use_ends {get : Toolbox → Tool τ} {put : Tool τ → Toolbox → Toolbox} {body : Work τ α}
    {done : α → Tool τ × Engine → Prop}
    (ends : body.Ends (get state.1, state.2) done fun _ _ => False) :
    (use get put body).Ends state (fun value after => ∃ tool, after.1 = put tool state.1 ∧
      done value (tool, after.2)) fun _ _ => False :=
  .within (use_apply get put body state)
    (ends.imp (fun _ after holds => ⟨after.1, rfl, holds⟩) fun _ _ impossible => impossible)

/-- Whatever a tool forgets, the numbering stays unless it is its turn. -/
theorem renumbering_forget {technique : Technique} (other : technique ≠ .renumbering)
    (forgot : tools.forget technique = some after) : after.renumbering = tools.renumbering := by
  cases technique with
  | renumbering => exact absurd rfl other
  | elimination =>
    simp only [forget, reset, Option.bind_eq_bind, Option.bind_eq_some_iff, Option.pure_def,
      Option.some.injEq] at forgot
    obtain ⟨own, _, rfl⟩ := forgot
    rfl
  | _ =>
    cases forgot
    rfl

/-- Tools that run in passes forget everything, and the numbering stays. -/
theorem renumbering_forgetAll (forgot : tools.forgetAll = some after) :
    after.renumbering = tools.renumbering := by
  have through : ∀ techniques : List Technique, .renumbering ∉ techniques → ∀ tools after,
      techniques.foldlM (fun tools technique => Toolbox.forget technique tools) tools = some after →
      after.renumbering = tools.renumbering := by
    intro techniques
    induction techniques with
    | nil =>
      intro _ tools after same
      cases same
      rfl
    | cons technique rest ih =>
      intro absent tools after folded
      simp only [List.foldlM_cons, Option.bind_eq_bind, Option.bind_eq_some_iff] at folded
      obtain ⟨middle, first, later⟩ := folded
      simp only [List.mem_cons, not_or] at absent
      exact (ih absent.2 middle after later).trans (renumbering_forget (Ne.symm absent.1) first)
  exact through passes (by decide) tools after forgot

/-- A compaction concerns handles, and the numbering has none. -/
theorem renumbering_relocate {relocation : Relocation}
    (relocated : tools.relocate relocation = some after) :
    after.renumbering = tools.renumbering := by
  simp only [relocate, Option.bind_eq_bind, Option.bind_eq_some_iff, Option.pure_def,
    Option.some.injEq] at relocated
  obtain ⟨_, _, _, _, _, _, rfl⟩ := relocated
  rfl

theorem renumbering_modifyBudget (change : Budget → Budget) (technique : Technique)
    (tools : Toolbox) :
    (tools.modifyBudget change technique).renumbering.own = tools.renumbering.own := by
  cases technique <;> rfl

end Toolbox

namespace Simplifier

variable {simplifier : Simplifier} {α : Type} {failed : Error → Simplifier → Prop}

/-- Work on the engine alone leaves the rest. -/
theorem lift_apply (body : Run Engine α) (simplifier : Simplifier) :
    (liftM body : Run Simplifier α) simplifier = (body simplifier.engine).mapState
      fun engine => { simplifier with engine := engine } := by
  change onEngine body simplifier = _
  unfold onEngine
  dsimp only
  cases body simplifier.engine <;> rfl

/-- Work on the engine alone ends as it does on the engine. -/
theorem ends_onEngine {body : Run Engine α} {done : α → Simplifier → Prop}
    (ends : body.Ends simplifier.engine
      (fun value engine => done value { simplifier with engine := engine })
      (fun cause engine => failed cause { simplifier with engine := engine })) :
    (liftM body : Run Simplifier α).Ends simplifier done failed :=
  .within (lift_apply body simplifier) ends

/-- Work on the engine with the tools leaves the number of the run. -/
theorem onTools_apply (body : Run (Toolbox × Engine) α) (simplifier : Simplifier) :
    onTools body simplifier = (body (simplifier.tools, simplifier.engine)).mapState
      fun part => { simplifier with tools := part.1, engine := part.2 } := by
  unfold onTools
  dsimp only
  cases body (simplifier.tools, simplifier.engine) <;> rfl

/-- Work on the engine with the tools. -/
theorem ends_onTools {body : Run (Toolbox × Engine) α} {done : α → Simplifier → Prop}
    (ends : body.Ends (simplifier.tools, simplifier.engine)
      (fun value part => done value { simplifier with tools := part.1, engine := part.2 })
      (fun cause part => failed cause { simplifier with tools := part.1, engine := part.2 })) :
    (onTools body).Ends simplifier done failed :=
  .within (onTools_apply body simplifier) ends

/-- Only the tools change. -/
theorem updateTools_ends {change : Toolbox → Option Toolbox} {done : Unit → Simplifier → Prop}
    (holds : ∀ tools, change simplifier.tools = some tools →
      done () { simplifier with tools := tools }) :
    (updateTools change).Ends simplifier done failed := by
  refine .update fun after changed => ?_
  simp only [Option.bind_eq_bind, Option.bind_eq_some_iff, Option.pure_def,
    Option.some.injEq] at changed
  obtain ⟨tools, found, rfl⟩ := changed
  exact holds tools found

/-- Numbering is not among the techniques of a pass. -/
theorem Stage.technique?_ne_renumbering {settings : Settings} {stage : Stage}
    {technique : Technique} (found : stage.technique? settings = some technique) :
    technique ≠ .renumbering := by
  rintro rfl
  cases stage <;> simp only [Stage.technique?] at found <;> grind

end Simplifier

variable [Realm]

/-! ## Fit engines -/

namespace Engine

/-- An engine of which nothing is wrong: it is sound and strict, no invariant was
found broken, the variables that went are counted, and the index is clean. -/
structure Healthy (engine : Engine) : Prop extends Sound engine where
  strict : ¬ Realm.Lenient
  intact : engine.poisoned = none
  accounts : engine.trail.Accounts
  clean : engine.index.dirty = #[]

/-- An engine that can be worked with: the formula is open, and applied root literals
are applied. -/
structure Fit (engine : Engine) : Prop extends Healthy engine where
  isOpen : engine.unsat = false
  settled : engine.Settled

variable {scope : Scope} {before middle after : Engine}

/-- A fit engine stays so. -/
theorem Leads.fit (leads : Leads scope before after) (fit : before.Fit) : after.Fit where
  toSound := leads.sound fit.toSound
  strict := fit.strict
  intact := leads.poisoned.trans fit.intact
  accounts := leads.accounts fit.accounts
  clean := leads.clean fit.clean
  isOpen := leads.unsat.trans fit.isOpen
  settled := leads.settled fit.settled

/-- Notices do not matter. -/
theorem Fit.tell (fit : before.Fit) (notice : Notice) :
    Fit { before with notices := before.notices.push notice } := by
  have leads : before.Leads .removal { before with notices := before.notices.push notice } :=
    .of_same fit.toSound rfl rfl rfl rfl rfl rfl rfl rfl rfl
  exact leads.fit fit

/-- Nothing is wrong after a refutation. -/
theorem Refutes.healthy (refutes : Refutes scope before after) (healthy : before.Healthy) :
    after.Healthy where
  toInStep := refutes.goes.inStep.of_same rfl rfl rfl rfl
  wellFormed := by
    obtain ⟨log, steps⟩ := refutes.reached
    have wellFormed := Steps.wellFormed steps healthy.wellFormed
    exact ⟨fun literals clause => (wellFormed.admits literals clause).of_same_vars rfl rfl,
      wellFormed.known, wellFormed.distinct⟩
  strict := healthy.strict
  intact := refutes.goes.poisoned.trans healthy.intact
  accounts := refutes.goes.accounts healthy.accounts
  clean := refutes.goes.clean healthy.clean

omit [Realm] in
/-- What stays after a computation does not depend on the verdict. -/
theorem Goes.with_unsat (goes : Goes scope before after) (unsat : Bool) :
    Goes scope { before with unsat := unsat } { after with unsat := unsat } where
  inStep := goes.inStep.of_same rfl rfl rfl rfl
  retains narrow := by
    obtain ⟨flags, records, pairs, supported⟩ := goes.retains narrow
    exact ⟨flags, records, pairs, supported⟩
  accounts := goes.accounts
  orderly := goes.orderly
  clean := goes.clean
  unsat := rfl
  poisoned := goes.poisoned
  settings := goes.settings

/-- After a refutation the clauses may change their places. -/
theorem Refutes.then_goes (refutes : Refutes scope before middle) (goes : middle.Goes scope after)
    (picture : after.picture = { middle.picture with irredundant := after.arena.Irredundant })
    (pure : middle.arena.Irredundant → after.arena.Irredundant) : Refutes scope before after := by
  obtain ⟨first, ⟨log, reached⟩, ⟨refuted, steps, rup, logged, rest⟩, unsat⟩ := refutes
  refine ⟨first.trans (goes.with_unsat before.unsat), ⟨log, ?_⟩, ⟨refuted, steps, rup, ?_⟩,
    goes.unsat.trans unsat⟩
  · rw [picture]
    exact reached.tail (.recast _ pure)
  · rw [picture]
    exact ⟨logged, rest⟩

end Engine

/-! ## Techniques -/

namespace Toolbox

variable {τ : Type} {state : Toolbox × Engine}

/-- How work with a tool other than the numbering ends. -/
theorem use_concludes {scope : Scope} {get : Toolbox → Tool τ} {put : Tool τ → Toolbox → Toolbox}
    {body : Work τ Status}
    (keeps : ∀ tool, (put tool state.1).renumbering = state.1.renumbering)
    (ends : body.Ends (get state.1, state.2)
      (fun status after => state.2.Concludes scope status after.2) fun _ _ => False) :
    (use get put body).Ends state (fun status after =>
      state.2.Concludes .removal status after.2 ∧ after.1.renumbering = state.1.renumbering)
      fun _ _ => False := by
  refine (use_ends ends).imp ?_ fun _ _ impossible => impossible
  rintro status ⟨tools, engine⟩ ⟨tool, rfl, concludes⟩
  exact ⟨concludes.to_removal, keeps tool⟩

/-- Every technique comes to a conclusion, and all but one leave the numbering. Only
probing rests on the root literals being applied. -/
theorem process_ends (technique : Technique) (other : technique ≠ .renumbering)
    (sound : state.2.Sound) (settled : technique = .probing → state.2.Settled) :
    (process technique).Ends state (fun status after =>
      state.2.Concludes .removal status after.2 ∧ after.1.renumbering = state.1.renumbering)
      fun _ _ => False := by
  unfold process useSubsumption useElimination
  cases technique with
  | units => exact use_concludes (fun _ => rfl) (@Units.process_ends _ .removal _ sound)
  | twoSat => exact use_concludes (fun _ => rfl) (TwoSat.process_ends sound)
  | subsumption => exact use_concludes (fun _ => rfl) (Subsumer.process_ends sound)
  | equivalences => exact use_concludes (fun _ => rfl) (Equivalence.process_ends sound)
  | probing => exact use_concludes (fun _ => rfl) (Probing.process_ends sound (settled rfl))
  | elimination => exact use_concludes (fun _ => rfl) (Eliminator.process_ends sound)
  | batchElimination =>
    exact use_concludes (fun _ => rfl) (BatchEliminator.process_ends sound)
  | blockedClauses => exact use_concludes (fun _ => rfl) (BlockedQueue.process_ends sound)
  | renumbering => exact absurd rfl other

/-- Numbering leaves the formula, and the numbering fits. -/
theorem process_renumbering_ends (sound : state.2.Sound) (strict : ¬ Realm.Lenient) :
    (process .renumbering).Ends state (fun _ after => state.2.Leads .removal after.2 ∧
      after.1.renumbering.own.Fits after.2.picture) fun _ _ => False := by
  unfold process useRenumbering
  have ends := @Numbering.process_ends _ .removal (state.1.renumbering, state.2) sound
  refine (use_ends ends).imp ?_ fun _ _ impossible => impossible
  rintro status ⟨tools, engine⟩ ⟨tool, rfl, concludes, open_, fits⟩
  rcases concludes.of_strict strict with ⟨_, leads, _⟩ | ⟨closed, _⟩
  · exact ⟨leads, fits⟩
  · exact absurd closed open_

end Toolbox

/-! ## Parts of a run -/

namespace Engine

variable {scope : Scope} {before after : Engine}

/-- Notices do not matter to what a technique came to. -/
theorem Decides.tell {status : Status} (decides : Decides scope before status after)
    (notice : Notice) :
    Decides scope before status { after with notices := after.notices.push notice } := by
  rcases decides with ⟨open_, leads, empty⟩ | ⟨closed, refutes⟩
  · refine .inl ⟨open_, ⟨leads.toGoes.trans ?_, leads.steps, leads.applied⟩, empty⟩
    exact .of_same leads.inStep rfl rfl rfl rfl rfl rfl rfl rfl rfl
  · refine .inr ⟨closed, refutes.then_goes ?_ rfl id⟩
    exact .of_same (refutes.goes.inStep.of_same rfl rfl rfl rfl) rfl rfl rfl rfl rfl rfl rfl rfl rfl

omit [Realm] in
/-- A compaction leaves everything but the places of the clauses. -/
theorem Goes.of_compact (inStep : before.InStep) {index : Occurrences} {notices : Array Notice}
    (relocated : before.index.relocate before.arena.compact.1 = some index) :
    before.Goes .removal { before with
      arena := before.arena.compact.2, index := index, notices := notices } := by
  have dirty : index.dirty = before.index.dirty := by
    obtain ⟨_, _, rfl⟩ := Occurrences.relocate_eq_some.1 relocated
    rfl
  exact ⟨⟨inStep.toFiled.relocate relocated, inStep.trail, inStep.due⟩, fun narrow => absurd rfl narrow,
    id, id, dirty ▸ id, rfl, rfl, rfl⟩

end Engine

namespace Simplifier

variable {before simplifier : Simplifier} {inprocessing : Bool} {after : Simplifier}

/-- What a compaction leaves. -/
structure Tidies (before after : Simplifier) : Prop where
  numbering : after.numbering = before.numbering
  picture : after.engine.picture =
    { before.engine.picture with irredundant := after.engine.arena.Irredundant }
  irredundant : before.engine.arena.Irredundant → after.engine.arena.Irredundant
  goes : before.engine.InStep → before.engine.Goes .removal after.engine
  applied : after.engine.applied = before.engine.applied

theorem Tidies.leads (tidies : before.Tidies after) (inStep : before.engine.InStep) :
    before.engine.Leads .removal after.engine := by
  refine .of_steps (tidies.goes inStep) ?_ tidies.applied
  rw [tidies.picture]
  exact .single (.recast _ tidies.irredundant)

/-- The clauses stay where they are, or the live ones move together and the tools follow. -/
inductive Collects (before : Simplifier) : Simplifier → Prop
  | kept : Collects before before
  | moved {index : Occurrences} {notices : Array Notice} {tools : Toolbox}
      (relocated : before.engine.index.relocate before.engine.arena.compact.1 = some index)
      (carried : before.tools.relocate before.engine.arena.compact.1 = some tools) :
      Collects before { before with
        engine := { before.engine with
          arena := before.engine.arena.compact.2, index := index, notices := notices }
        tools := tools }

omit [Realm] in
/-- Collecting garbage keeps the clauses, with new handles. -/
theorem collectGarbage_collects {failed : Error → Simplifier → Prop} :
    collectGarbage.Ends simplifier (fun _ after => simplifier.Collects after) failed := by
  unfold collectGarbage
  refine .step rfl ?_
  dsimp only
  split
  case isFalse => exact .pure .kept
  case isTrue =>
    refine .seq (ends_onEngine (.step rfl (.seq (Engine.updateIndex_ends fun index relocated => ?_))))
    exact .step rfl (.step rfl (.pure (updateTools_ends fun tools => .moved relocated)))

omit [Realm] in
/-- What collects garbage tidies up. -/
theorem Collects.tidies (collects : before.Collects after) : before.Tidies after := by
  cases collects with
  | kept => exact ⟨rfl, rfl, id, fun inStep => .refl inStep, rfl⟩
  | moved relocated carried =>
    refine ⟨congrArg Tool.own (Toolbox.renumbering_relocate carried), ?_, Arena.irredundant_compact,
      fun inStep => .of_compact inStep relocated, rfl⟩
    unfold Engine.picture Engine.numVars
    rw [Arena.contents_compact]

omit [Realm] in
theorem collectGarbage_ends {failed : Error → Simplifier → Prop} :
    collectGarbage.Ends simplifier (fun _ after => simplifier.Tidies after) failed :=
  collectGarbage_collects.imp (fun _ _ => Collects.tidies) fun _ _ => id

/-- What a part of a run came to; the numbering stays. -/
structure Reaches (before : Simplifier) (status : Status) (after : Simplifier) : Prop where
  decides : before.engine.Decides .removal status after.engine
  numbering : after.numbering = before.numbering

theorem Reaches.of_leads {status : Status} (open_ : status = .unknown)
    (leads : before.engine.Leads .removal after.engine)
    (numbering : after.numbering = before.numbering) : before.Reaches status after := by
  subst open_
  exact ⟨.inl ⟨by decide, leads, nofun⟩, numbering⟩

theorem Reaches.trans {middle after : Simplifier} {status last : Status}
    (first : before.Reaches status middle) (open_ : status ≠ .unsat)
    (second : middle.Reaches last after) : before.Reaches last after := by
  rcases first with ⟨⟨_, leads, _⟩ | ⟨closed, _⟩, numbering⟩
  · exact ⟨leads.then_decides second.decides, second.numbering.trans numbering⟩
  · exact absurd closed open_

/-- A part of a run that is not over leads to a fit state. -/
theorem Reaches.leads {status : Status} (reaches : before.Reaches status after)
    (open_ : status ≠ .unsat) : before.engine.Leads .removal after.engine := by
  rcases reaches.decides with ⟨_, leads, _⟩ | ⟨closed, _⟩
  · exact leads
  · exact absurd closed open_

/-- A technique runs, or sits the round out. -/
theorem runTechnique_ends {technique : Technique} (other : technique ≠ .renumbering)
    (fit : simplifier.engine.Fit) :
    (runTechnique technique).Ends simplifier
      (fun status after => simplifier.Reaches (status.getD .unknown) after) fun _ _ => False := by
  unfold runTechnique
  refine .step rfl ?_
  rcases (simplifier.tools.budget technique).mayRun with ⟨mayRun, budget⟩
  refine .seq (updateTools_ends fun tools budgeted => ?_)
  obtain rfl := Option.some.inj budgeted
  cases mayRun with
  | false =>
    refine .step rfl (.pure (.of_leads rfl ?_ (Toolbox.renumbering_modifyBudget ..)))
    exact .of_same fit.toSound rfl rfl rfl rfl rfl rfl rfl rfl rfl
  | true =>
    refine .step rfl (.seq (ends_onTools ?_))
    refine (Toolbox.process_ends technique other fit.toSound fun _ => fit.settled).imp ?_
      fun _ _ impossible => impossible
    rintro status ⟨tools, engine⟩ ⟨concludes, renumbering⟩
    refine .step rfl (.seq (updateTools_ends fun tools budgeted => ?_))
    obtain rfl := Option.some.inj budgeted
    refine .step rfl (.step rfl (.pure ⟨(concludes.of_strict fit.strict).tell _, ?_⟩))
    refine (Toolbox.renumbering_modifyBudget ..).trans ?_
    exact (congrArg Tool.own renumbering).trans (Toolbox.renumbering_modifyBudget ..)

/-- The status with which a pass goes on or ends. -/
def PassEnd.status : PassEnd → Status
  | .complete => .unknown
  | .stopped status => status

/-- Stages follow one another until one decides the formula. -/
theorem runStages_ends {pass : Nat} (stages : List Stage) (fit : simplifier.engine.Fit) :
    (runStages pass stages).Ends simplifier
      (fun ended after => simplifier.Reaches ended.status after) fun _ _ => False := by
  induction stages generalizing simplifier with
  | nil => exact .pure (.of_leads rfl (.refl fit.toSound) rfl)
  | cons stage rest ih =>
    unfold runStages
    refine .step rfl ?_
    dsimp only
    split
    · refine .step rfl (.pure (.of_leads rfl ?_ rfl))
      exact .of_same fit.toSound rfl rfl rfl rfl rfl rfl rfl rfl rfl
    split
    · exact ih fit
    next technique found =>
      have other := Stage.technique?_ne_renumbering found
      refine .bind (runTechnique_ends other fit) fun status after reaches => ?_
      split
      · exact .pure reaches
      · exact .pure reaches
      next notUnsat _ =>
        have open_ : status.getD .unknown ≠ .unsat := by
          cases status with
          | none => decide
          | some status => exact fun closed => notUnsat (congrArg some closed)
        have leads := reaches.leads open_
        refine .step rfl ?_
        split
        · exact .pure (.of_leads rfl leads reaches.numbering)
        refine .bind collectGarbage_ends fun _ tidy tidies => ?_
        have onward := leads.trans (tidies.leads leads.inStep)
        refine (ih (onward.fit fit)).imp ?_ fun _ _ impossible => impossible
        intro ended last further
        have numbering := tidies.numbering.trans reaches.numbering
        exact (Reaches.of_leads rfl onward numbering).trans (by decide) further

/-- Passes follow one another until one changes nothing or decides the formula. -/
theorem runPasses_ends (remaining pass : Nat) (fit : simplifier.engine.Fit) :
    (runPasses remaining pass).Ends simplifier
      (fun status after => simplifier.Reaches status after) fun _ _ => False := by
  induction remaining generalizing pass simplifier with
  | zero => exact .pure (.of_leads rfl (.refl fit.toSound) rfl)
  | succ remaining ih =>
    unfold runPasses
    refine .step rfl (.bind (runStages_ends stages fit) fun ended after reaches => ?_)
    cases ended with
    | stopped status => exact .pure reaches
    | complete =>
      have leads := reaches.leads (by decide)
      have told : ∀ notice, simplifier.Reaches .unknown { after with
          engine := { after.engine with notices := after.engine.notices.push notice } } :=
        fun notice => ⟨reaches.decides.tell notice, reaches.numbering⟩
      refine .step rfl (.step rfl ?_)
      split
      · exact .pure (told _)
      · refine (ih (pass + 1) (((told _).leads (by decide)).fit fit)).imp ?_
          fun _ _ impossible => impossible
        exact fun status last further => (told _).trans (by decide) further

/-! ## Whole runs -/

/-- The formula went over to another one by steps. The numbering stays, or one was
built that fits what is left. -/
structure Simplified (before after : Simplifier) : Prop where
  leads : before.engine.Leads .removal after.engine
  numbering : after.numbering = before.numbering ∨
    before.engine.settings.renumbering = true ∧ before.numbering.isActive = false ∧
      after.numbering.Fits after.engine.picture

/-- The formula was refuted, and the numbering stays. -/
structure Refuted (before after : Simplifier) : Prop where
  refutes : before.engine.Refutes .removal after.engine
  numbering : after.numbering = before.numbering

/-- The part of the end of a run that numbers the variables. -/
def number (inprocessing : Bool) : Run Simplifier Unit := do
  let simplifier ← get
  if !inprocessing && simplifier.engine.settings.renumbering && !simplifier.engine.unsat &&
      !simplifier.numbering.isActive then
    let _ ← onTools (Toolbox.process .renumbering)

/-- Numbering is the last step of a run. -/
theorem number_ends (fit : before.engine.Fit) {status : Status}
    (reaches : before.Reaches status simplifier) :
    (number inprocessing).Ends simplifier
      (fun _ after => before.Simplified after ∨ before.Refuted after) fun _ _ => False := by
  refine .step rfl ?_
  rcases reaches.decides with ⟨_, leads, _⟩ | ⟨_, refutes⟩
  · split
    next asked =>
      have inactive : before.numbering.isActive = false := by
        rw [← reaches.numbering]
        simpa using (Bool.and_eq_true_iff.1 asked).2
      have wanted : before.engine.settings.renumbering = true := by
        rw [← leads.settings]
        simp only [Bool.and_eq_true] at asked
        exact asked.1.1.2
      refine .seq (ends_onTools ?_)
      refine (Toolbox.process_renumbering_ends (leads.sound fit.toSound) fit.strict).imp ?_
        fun _ _ impossible => impossible
      rintro _ ⟨tools, engine⟩ ⟨further, fits⟩
      exact .pure (.inl ⟨leads.trans further, .inr ⟨wanted, inactive, fits⟩⟩)
    · exact .pure (.inl ⟨leads, .inl reaches.numbering⟩)
  · have closed : (!inprocessing && simplifier.engine.settings.renumbering &&
        !simplifier.engine.unsat && !simplifier.numbering.isActive) = false := by
      simp [refutes.unsat]
    rw [closed]
    exact .pure (.inr ⟨refutes, reaches.numbering⟩)

/-- The last look at the formula may refute it, or number its variables. -/
theorem finish_ends {status : Status} (open_ : status ≠ .unsat) (fit : before.engine.Fit)
    (reaches : before.Reaches status simplifier) :
    (finish inprocessing).Ends simplifier
      (fun _ after => before.Simplified after ∨ before.Refuted after) fun _ _ => False := by
  unfold finish
  refine .step rfl ?_
  dsimp only
  split
  · refine .seq (ends_onTools ?_)
    have fitNow := (reaches.leads open_).fit fit
    refine (Toolbox.process_ends .twoSat (by decide) fitNow.toSound nofun).imp ?_
      fun _ _ impossible => impossible
    rintro last ⟨tools, engine⟩ ⟨concludes, renumbering⟩
    have further : simplifier.Reaches last { simplifier with tools := tools, engine := engine } :=
      ⟨concludes.of_strict fit.strict, congrArg Tool.own renumbering⟩
    exact number_ends fit (reaches.trans open_ further)
  · exact number_ends fit reaches

/-- The end of a run: tools forget what they remember, and the arena is compacted. -/
def close : Run Simplifier Status := do
  updateTools Toolbox.forgetAll
  collectGarbage
  (modify fun engine => { engine with inprocessing := false } : Run Engine Unit)
  let engine := (← get).engine
  Engine.tell (summary engine (verdict engine))
  return verdict engine

/-- A run that is closed leaves what it reached. -/
theorem close_ends (fit : before.engine.Fit)
    (ended : before.Simplified simplifier ∨ before.Refuted simplifier) :
    close.Ends simplifier (fun status after => status = verdict after.engine ∧
      (before.Simplified after ∨ before.Refuted after)) fun _ _ => False := by
  unfold close
  refine .seq (updateTools_ends fun tools forgot => ?_)
  refine .bind collectGarbage_ends fun _ tidy tidies => ?_
  refine .step rfl (.step rfl (.step rfl (.pure ⟨rfl, ?_⟩)))
  have numbering : tidy.numbering = simplifier.numbering :=
    tidies.numbering.trans (congrArg Tool.own (Toolbox.renumbering_forgetAll forgot))
  rcases ended with ⟨leads, numbered⟩ | ⟨refutes, sameNumbering⟩
  · left
    have tidied := leads.trans (tidies.leads leads.inStep)
    refine ⟨tidied.trans (.of_same (tidied.sound fit.toSound) rfl rfl rfl rfl rfl rfl rfl rfl rfl),
      ?_⟩
    rcases numbered with same | ⟨wanted, inactive, fits⟩
    · exact .inl (numbering.trans same)
    · refine .inr ⟨wanted, inactive, ?_⟩
      change tidy.numbering.Fits tidy.engine.picture
      rw [numbering, tidies.picture]
      exact ⟨fits.active, fits.inRange, fits.distinct, fits.frozen, fits.mentioned, fits.needed⟩
  · right
    have goes := tidies.goes (refutes.goes.inStep.of_same rfl rfl rfl rfl)
    refine ⟨(refutes.then_goes goes tidies.picture tidies.irredundant).then_goes ?_ rfl id,
      numbering.trans sameNumbering⟩
    exact .of_same goes.inStep rfl rfl rfl rfl rfl rfl rfl rfl rfl

omit [Realm] in
/-- A refuted formula is left as it is. -/
theorem run_of_closed (closed : simplifier.engine.unsat = true) :
    run inprocessing simplifier = .done .unsat { simplifier with runs := simplifier.runs + 1 } := by
  unfold run
  rw [Run.bind_of_done (Run.modify_apply _ simplifier), Run.bind_of_done (Run.get_apply _)]
  dsimp only
  rw [closed]
  rfl

/-- A run from a fit state simplifies the formula or refutes it. -/
theorem run_ends (fit : simplifier.engine.Fit) :
    (run inprocessing).Ends simplifier (fun status after => status = verdict after.engine ∧
      (simplifier.Simplified after ∨ simplifier.Refuted after)) fun _ _ => False := by
  unfold run
  refine .step rfl (.step rfl ?_)
  dsimp only
  rw [fit.isOpen, fit.intact]
  refine .step rfl ?_
  -- The state in which the passes begin differs in counters and notices only.
  have leads : ∀ notices, simplifier.engine.Leads .removal { simplifier.engine with
      inprocessing := inprocessing, notices := notices } := fun _ =>
    .of_same fit.toSound rfl rfl rfl rfl rfl rfl rfl rfl rfl
  have atRoot := Engine.cancelToRoot_of_sound ((leads simplifier.engine.notices).sound fit.toSound)
  refine .seq (ends_onEngine (.of_done atRoot ?_))
  refine .step rfl (.step rfl ?_)
  refine .bind (runPasses_ends _ 1 ((leads _).fit fit)) fun status after reaches => ?_
  have whole : simplifier.Reaches status after :=
    ⟨(leads _).then_decides reaches.decides, reaches.numbering⟩
  split
  next open_ => exact .bind (finish_ends open_ fit whole) fun _ last ended => close_ends fit ended
  next closed =>
    rcases whole.decides with ⟨open_, _⟩ | ⟨_, refutes⟩
    · exact absurd open_ closed
    · exact close_ends fit (.inr ⟨refutes, whole.numbering⟩)

end Simplifier

end CnfSimplifier
