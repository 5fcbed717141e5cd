import CnfSimplifier.Proofs.AppliedTechniques
import CnfSimplifier.Proofs.Consistency
import CnfSimplifier.Proofs.CountedRuns
import CnfSimplifier.Proofs.UnnumberedRuns

/-!
# Runs that apply every root literal

In a run some techniques are switched off and others have to sit rounds out for being
fruitless before. All of them apply the root literals first, so it is enough that one of
them gets to run; and the 2-SAT solver, where it is switched on, runs at the end whatever
its penalty.

If all of them sit the first pass out, the pass changes nothing and the run is over.
Then root literals may be left to apply, and a conflict that unit propagation would find
may be missed until the penalties are served.
-/
namespace CnfSimplifier

namespace Engine

variable {start before after : Engine}

theorem Clears.of_same (clears : start.Clears before) (same : before.SameQueue after) :
    start.Clears after :=
  ⟨same.current clears.current, clears.consistent⟩

/-- An earlier formula was cleared, or the formula is still the same. -/
def ClearedOrSame (start engine : Engine) : Prop :=
  start.Clears engine ∨ engine.picture.formula = start.picture.formula

/-- What was not cleared before is cleared now. -/
theorem Clears.since (clears : before.Clears after) (sofar : start.ClearedOrSame before) :
    start.Clears after := by
  rcases sofar with earlier | same
  · exact ⟨clears.current, earlier.consistent⟩
  · exact ⟨clears.current, same ▸ clears.consistent⟩

end Engine

namespace Probing

variable {engine : Engine}

/-- Where no literal is left to apply, all of the trail was applied. -/
theorem Applied.applied_eq (applied : Applied engine) :
    engine.applied = engine.trail.literals.size := by
  have inTrail : engine.applied ≤ engine.trail.facts.length := applied.settled.settles.inTrail
  rw [applied.settled.orderly] at inTrail
  exact le_antisymm (by simpa using inTrail) applied.all

/-- Where no literal is left to apply, the variables of the clauses are open. -/
theorem Applied.open_of_live [Realm] (applied : Applied engine)
    (sound : engine.Sound) {clause : Clause} (live : clause ∈ engine.arena.liveClauses)
    {literal : Literal} (inside : literal ∈ clause.literals) :
    engine.trail.value? literal.var = some none := by
  have stored := Arena.literals_mem_contents live
  obtain ⟨positive, inRange, _⟩ := (sound.wellFormed.admits _ stored).present literal inside
  have inTable := Trail.lt_of_le_numVars sound.trail.nonempty inRange
  have isOpen : ∀ other ∈ engine.trail.facts, other.var ≠ literal.var := fun other fact same =>
    applied.unmentioned fact ⟨clause.literals, stored, literal, inside, same.symm⟩
  have isNone := sound.trail.agrees.literalValue?_of_open positive inTable isOpen
  obtain ⟨value, known, none⟩ := Option.map_eq_some_iff.1 isNone
  simp only [Literal.valueUnder, Option.map_eq_none_iff] at none
  rw [known, none]

end Probing

namespace Toolbox

variable {technique other : Technique} {tools after : Toolbox}

theorem budget_modifyBudget_of_ne (change : Budget → Budget) (different : other ≠ technique) :
    (tools.modifyBudget change technique).budget other = tools.budget other := by
  cases technique <;> cases other <;> first | rfl | exact absurd rfl different

/-- Carrying tools over leaves their budgets. -/
theorem budget_relocate {relocation : Relocation} (moved : tools.relocate relocation = some after) :
    after.budget other = tools.budget other := by
  simp only [relocate, Option.bind_eq_bind, Option.bind_eq_some_iff, Option.pure_def,
    Option.some.injEq] at moved
  obtain ⟨_, _, _, _, _, _, rfl⟩ := moved
  cases other <;> rfl

end Toolbox

namespace Simplifier

variable {before after simplifier : Simplifier}

/-- The technique of a stage is switched on and has no penalty to serve. -/
def MayRun (simplifier : Simplifier) (stage : Stage) : Prop :=
  ∃ technique, stage.technique? simplifier.engine.settings = some technique ∧
    (simplifier.tools.budget technique).penalty = 0

instance (simplifier : Simplifier) (stage : Stage) : Decidable (simplifier.MayRun stage) :=
  match found : stage.technique? simplifier.engine.settings with
  | none => .isFalse fun ⟨_, isSome, _⟩ => by simp [found] at isSome
  | some technique =>
    decidable_of_iff ((simplifier.tools.budget technique).penalty = 0) (by simp [MayRun, found])

/-! ## Parts of a run -/

/-- Nothing happens to the root literals, the budgets and the verdict. -/
structure Idles (before after : Simplifier) : Prop where
  queue : before.engine.SameQueue after.engine
  unsat : after.engine.unsat = before.engine.unsat
  budgets : ∀ technique, after.tools.budget technique = before.tools.budget technique

theorem Collects.idles {after : Simplifier} (collects : simplifier.Collects after) :
    simplifier.Idles after := by
  cases collects with
  | kept => exact ⟨⟨rfl, rfl⟩, rfl, fun _ => rfl⟩
  | moved relocated carried => exact ⟨⟨rfl, rfl⟩, rfl, fun _ => Toolbox.budget_relocate carried⟩

/-- A technique sat the round out: it had a penalty, and but for that all is as it was. -/
structure SatOut (technique : Technique) (before after : Simplifier) : Prop where
  penalised : (before.tools.budget technique).penalty ≠ 0
  queue : before.engine.SameQueue after.engine
  formula : after.engine.picture.formula = before.engine.picture.formula
  settings : after.engine.settings = before.engine.settings
  budgets : ∀ other ≠ technique, after.tools.budget other = before.tools.budget other

variable [Realm] {start : Engine} {inprocessing : Bool}

/-- A technique clears the formula or refutes it, unless it sits the round out. -/
theorem runTechnique_clears {technique : Technique} (other : technique ≠ .renumbering)
    (fit : simplifier.engine.Fit) :
    (runTechnique technique).Ends simplifier (fun status after =>
      (after.engine.unsat = false → simplifier.engine.Clears after.engine) ∨
        (status = none ∧ SatOut technique simplifier after)) fun _ _ => False := by
  unfold runTechnique Budget.mayRun
  refine .step rfl ?_
  cases penalty : (simplifier.tools.budget technique).penalty with
  | zero =>
    dsimp only
    refine .seq (updateTools_ends fun tools budgeted => ?_)
    refine .step rfl (.seq (ends_onTools ?_))
    refine (Toolbox.process_clears technique other fit.toSound fit.strict fit.settled).imp ?_
      fun _ _ impossible => impossible
    rintro status ⟨tools, engine⟩ clears
    refine .step rfl (.seq (updateTools_ends fun tools budgeted => ?_))
    exact .step rfl (.step rfl (.pure (.inl fun isOpen => (clears isOpen).of_same ⟨rfl, rfl⟩)))
  | succ left =>
    dsimp only
    refine .seq (updateTools_ends fun tools budgeted => ?_)
    obtain rfl := Option.some.inj budgeted
    refine .step rfl (.pure (.inr ⟨rfl, ?_, ⟨rfl, rfl⟩, rfl, rfl, fun _ different => ?_⟩))
    · rw [penalty]
      exact Nat.succ_ne_zero left
    · exact Toolbox.budget_modifyBudget_of_ne _ different

/-- The formula was not cleared: all stages were off or sat out. -/
structure Missed (start : Engine) (stages : List Stage) (before after : Simplifier) : Prop where
  uncleared : ¬ start.Clears before.engine
  formula : after.engine.picture.formula = start.picture.formula
  idle : ∀ stage ∈ stages, ¬ before.MayRun stage

omit [Realm] in
/-- A technique that sits a round out leaves the others their turn. -/
theorem SatOut.mayRun {technique : Technique} {tidy : Simplifier} {stage : Stage}
    (satOut : SatOut technique before after) (idles : after.Idles tidy)
    (settings : tidy.engine.settings = after.engine.settings) (mayRun : before.MayRun stage) :
    tidy.MayRun stage := by
  obtain ⟨own, found, free⟩ := mayRun
  refine ⟨own, by rwa [settings, satOut.settings], ?_⟩
  have different : own ≠ technique := by
    rintro rfl
    exact satOut.penalised free
  rw [idles.budgets, satOut.budgets own different]
  exact free

omit [Realm] in
/-- A stage that is off may not run. -/
theorem Missed.of_off {stage : Stage} {rest : List Stage} (missed : Missed start rest before after)
    (off : stage.technique? before.engine.settings = none) :
    Missed start (stage :: rest) before after := by
  refine ⟨missed.uncleared, missed.formula, List.forall_mem_cons.2 ⟨?_, missed.idle⟩⟩
  rintro ⟨technique, found, _⟩
  rw [off] at found
  cases found

omit [Realm] in
/-- A stage that sat the round out was not to run, and what the later ones miss is what was
missed before. -/
theorem Missed.of_satOut {stage : Stage} {rest : List Stage} {technique : Technique}
    {tidy last : Simplifier} (missed : Missed start rest tidy last)
    (satOut : SatOut technique before after) (idles : after.Idles tidy)
    (settings : tidy.engine.settings = after.engine.settings)
    (found : stage.technique? before.engine.settings = some technique) :
    Missed start (stage :: rest) before last := by
  refine ⟨fun cleared => missed.uncleared ((cleared.of_same satOut.queue).of_same idles.queue),
    missed.formula, List.forall_mem_cons.2 ⟨?_, fun next inRest mayRun =>
      missed.idle next inRest (satOut.mayRun idles settings mayRun)⟩⟩
  rintro ⟨own, isOwn, free⟩
  obtain rfl := Option.some.inj (found.symm.trans isOwn)
  exact satOut.penalised free

/-- Stages clear the formula, unless all of their techniques are off or sit the round
out. -/
theorem runStages_clears {pass : Nat} (stages : List Stage) (fit : simplifier.engine.Fit)
    (running : simplifier.engine.interrupted = false)
    (sofar : start.ClearedOrSame simplifier.engine) :
    (runStages pass stages).Ends simplifier (fun _ after => after.engine.unsat = false →
      start.Clears after.engine ∨ Missed start stages simplifier after) fun _ _ => False := by
  induction stages generalizing simplifier with
  | nil =>
    refine .pure fun _ => ?_
    by_cases cleared : start.Clears simplifier.engine
    · exact .inl cleared
    · exact .inr ⟨cleared, sofar.resolve_left cleared, List.forall_mem_nil _⟩
  | cons stage rest ih =>
    unfold runStages
    refine .step rfl ?_
    dsimp only
    rw [running, if_neg Bool.false_ne_true]
    split
    next off =>
      exact (ih fit running sofar).imp (fun _ after held isOpen =>
        (held isOpen).imp_right fun missed => missed.of_off off) fun _ _ => id
    next technique found =>
      have other := Stage.technique?_ne_renumbering found
      have reaching : (runTechnique technique).Ends simplifier _ fun _ _ => False :=
        runTechnique_ends other fit
      have registering : (runTechnique technique).Ends simplifier _ _ := runTechnique_registers fit
      have ran := (runTechnique_clears other fit).and (reaching.and registering)
      refine Run.Ends.bind (ran.imp (fun _ _ => id) fun _ _ impossible => impossible.1) ?_
      rintro status middle ⟨clears, reaches, registers⟩
      -- Only a technique that ran has a status.
      have stopped : status ≠ none → middle.engine.unsat = false →
          start.Clears middle.engine ∨ Missed start (stage :: rest) simplifier middle := by
        intro gave isOpen
        rcases clears with clears | ⟨none, _⟩
        · exact .inl ((clears isOpen).since sofar)
        · exact absurd none gave
      split
      · exact .pure (stopped (Option.some_ne_none _))
      · exact .pure (stopped (Option.some_ne_none _))
      next notUnsat _ =>
        have open_ : status.getD .unknown ≠ .unsat := by
          cases status with
          | none => decide
          | some status => exact fun closed => notUnsat (congrArg some closed)
        have leads := reaches.leads open_
        have fitMiddle := leads.fit fit
        refine .step rfl ?_
        rw [fitMiddle.intact, Option.isSome_none, if_neg Bool.false_ne_true]
        refine Run.Ends.bind collectGarbage_collects fun _ tidy collects => ?_
        have tidies := collects.tidies
        have idles := collects.idles
        have noted := collects.registers
        have onward := leads.trans (tidies.leads leads.inStep)
        have runningTidy : tidy.engine.interrupted = false :=
          (noted.interrupted.trans registers.interrupted).trans running
        have formula : tidy.engine.picture.formula = middle.engine.picture.formula := by
          rw [tidies.picture]
          rfl
        rcases clears with clears | ⟨_, satOut⟩
        · have cleared : start.Clears tidy.engine :=
            ((clears fitMiddle.isOpen).since sofar).of_same idles.queue
          exact (ih (onward.fit fit) runningTidy (.inl cleared)).imp (fun _ after held isOpen =>
            .inl ((held isOpen).resolve_right fun missed => missed.uncleared cleared)) fun _ _ => id
        · have sofarTidy : start.ClearedOrSame tidy.engine := sofar.imp
            (fun cleared => (cleared.of_same satOut.queue).of_same idles.queue)
            fun same => (formula.trans satOut.formula).trans same
          exact (ih (onward.fit fit) runningTidy sofarTidy).imp (fun _ after held isOpen =>
            (held isOpen).imp_right fun missed =>
              missed.of_satOut satOut idles noted.settings found) fun _ _ => id

/-- Passes clear the formula, unless there are none or no stage may run in the first. -/
theorem runPasses_clears (remaining pass : Nat) (fit : simplifier.engine.Fit)
    (running : simplifier.engine.interrupted = false)
    (sofar : start.ClearedOrSame simplifier.engine) :
    (runPasses remaining pass).Ends simplifier (fun _ after => after.engine.unsat = false →
      start.Clears after.engine ∨
        Missed start (if remaining = 0 then [] else stages) simplifier after)
      fun _ _ => False := by
  induction remaining generalizing pass simplifier with
  | zero =>
    refine .pure fun _ => ?_
    by_cases cleared : start.Clears simplifier.engine
    · exact .inl cleared
    · exact .inr ⟨cleared, sofar.resolve_left cleared, List.forall_mem_nil _⟩
  | succ remaining ih =>
    unfold runPasses
    rw [if_neg (Nat.succ_ne_zero remaining)]
    have reaching : (runStages pass stages).Ends simplifier _ fun _ _ => False :=
      runStages_ends stages fit
    have registering : (runStages pass stages).Ends simplifier _ _ := runStages_registers stages fit
    have ran := (runStages_clears stages fit running sofar).and (reaching.and registering)
    refine .step rfl (.bind (ran.imp (fun _ _ => id) fun _ _ impossible => impossible.1) ?_)
    rintro ended middle ⟨clears, reaches, registers⟩
    cases ended with
    | stopped status => exact .pure clears
    | complete =>
      have leads := reaches.leads (by decide)
      have fitMiddle := leads.fit fit
      refine .step rfl (.step rfl ?_)
      split
      · refine .pure fun isOpen => ?_
        rcases clears isOpen with cleared | missed
        · exact .inl (cleared.of_same ⟨rfl, rfl⟩)
        · exact .inr ⟨missed.uncleared, missed.formula, missed.idle⟩
      · have sofarNow : start.ClearedOrSame middle.engine :=
          (clears fitMiddle.isOpen).imp id Missed.formula
        refine Run.Ends.imp (ih (pass + 1) ?_ (registers.interrupted.trans running) ?_) ?_
          fun _ _ => id
        · exact fitMiddle.tell _
        · exact sofarNow.imp (fun cleared => cleared.of_same ⟨rfl, rfl⟩) id
        intro _ after held isOpen
        rcases held isOpen with cleared | later
        · exact .inl cleared
        rcases clears fitMiddle.isOpen with cleared | missed
        · exact (later.uncleared (cleared.of_same ⟨rfl, rfl⟩)).elim
        · exact .inr ⟨missed.uncleared, later.formula, missed.idle⟩

/-- The 2-SAT solver clears the formula at the end of a run, where it is switched on. -/
theorem refresh_clears (fit : simplifier.engine.Fit)
    (running : simplifier.engine.interrupted = false)
    (sofar : start.ClearedOrSame simplifier.engine) :
    refresh.Ends simplifier (fun _ after => after.engine.unsat = false →
      start.Clears after.engine ∨
        (¬ start.Clears simplifier.engine ∧ simplifier.engine.settings.twoSat = false))
      fun _ _ => False := by
  unfold refresh
  refine .step rfl ?_
  dsimp only
  split
  next asked =>
    refine .seq (ends_onTools ?_)
    refine (Toolbox.process_clears .twoSat (by decide) fit.toSound fit.strict fit.settled).imp ?_
      fun _ _ impossible => impossible
    exact fun status after clears => .pure fun isOpen => .inl ((clears isOpen).since sofar)
  next declined =>
    refine .pure fun _ => ?_
    by_cases cleared : start.Clears simplifier.engine
    · exact .inl cleared
    · refine .inr ⟨cleared, ?_⟩
      simpa [running] using declined

omit [Realm] in
/-- The end of a run leaves what is to be applied. -/
theorem close_queue {failed : Error → Simplifier → Prop} :
    close.Ends simplifier (fun status after => status = verdict after.engine ∧
      simplifier.engine.SameQueue after.engine ∧
      after.engine.unsat = simplifier.engine.unsat) failed := by
  unfold close
  refine .seq (updateTools_ends fun tools forgot => ?_)
  refine .bind collectGarbage_collects fun _ tidy collects => ?_
  have idles := collects.idles
  exact .step rfl (.step rfl (.step rfl (.pure
    ⟨rfl, ⟨idles.queue.literals, idles.queue.applied⟩, idles.unsat⟩)))

/-- Numbering the variables leaves what is to be applied. -/
theorem number_queue (inprocessing : Bool)
    (sound : simplifier.engine.unsat = true ∨ simplifier.engine.Sound) :
    (number inprocessing).Ends simplifier (fun _ after =>
      simplifier.engine.SameQueue after.engine ∧
        after.engine.unsat = simplifier.engine.unsat) fun _ _ => False := by
  obtain ⟨_, after, ended, same⟩ := number_returns inprocessing sound
  have trail := congrArg Engine.trail (engine_eq same)
  have applied := congrArg Engine.applied (engine_eq same)
  have unsat := congrArg Engine.unsat (engine_eq same)
  exact .of_done ended ⟨⟨congrArg Trail.literals trail, applied⟩, unsat⟩

/-! ## Whole runs -/

/-- The next run gets to apply the root literals: none is left to apply, or the 2-SAT
solver is switched on, or there is a pass to be made and a stage may run in it. -/
inductive Able (simplifier : Simplifier) : Prop
  | current (none : simplifier.engine.Current)
  | twoSat (on : simplifier.engine.settings.twoSat = true)
  | stage (passes : 0 < simplifier.engine.settings.passes.toNat)
    (mayRun : ∃ stage ∈ stages, simplifier.MayRun stage)

/-- The end of a run clears the formula if the 2-SAT solver is switched on or the
passes did. -/
theorem finish_clears (fit : simplifier.engine.Fit)
    (running : simplifier.engine.interrupted = false)
    (sofar : start.ClearedOrSame simplifier.engine)
    (able : start.Clears simplifier.engine ∨ simplifier.engine.settings.twoSat = true) :
    (finish inprocessing).Ends simplifier
      (fun _ after => after.engine.unsat = false → start.Clears after.engine)
      fun _ _ => False := by
  rw [finish_eq]
  have refreshing : refresh.Ends simplifier _ fun _ _ => False := refresh_ends fit
  refine Run.Ends.bind ((refresh_clears fit running sofar).and refreshing |>.imp
    (fun _ _ => id) fun _ _ impossible => impossible.1) ?_
  rintro _ middle ⟨clears, status, reaches⟩
  refine (number_queue inprocessing (reaches.sound fit)).imp ?_ fun _ _ => id
  rintro _ after ⟨queue, unsat⟩ isOpen
  rcases clears (unsat.symm.trans isOpen) with cleared | ⟨uncleared, off⟩
  · exact cleared.of_same queue
  · rw [off] at able
    exact absurd (able.resolve_right Bool.false_ne_true) uncleared

/-- A run that gets to apply the root literals clears the formula or refutes it. -/
theorem run_clears (fit : simplifier.engine.Fit) (running : simplifier.engine.interrupted = false)
    (able : simplifier.Able) :
    (run inprocessing).Ends simplifier (fun status after => status = verdict after.engine ∧
      (after.engine.unsat = false → simplifier.engine.Clears after.engine)) fun _ _ => False := by
  unfold Run.Ends
  rw [run_of_open fit.isOpen fit.intact]
  change Run.Ends _ _ _ _
  refine .bind (@opening_ends _ { simplifier with runs := simplifier.runs + 1 } _ _ fit) ?_
  intro passes opened begun
  have openedFit := begun.fit
  obtain ⟨notices, rfl⟩ := begun.same
  have reaching := runPasses_ends passes 1 openedFit
  have clearing := @runPasses_clears _ _ simplifier.engine passes 1 openedFit running (.inr rfl)
  have registering := runPasses_registers passes 1 openedFit
  refine .bind ((clearing.and (reaching.and registering)).imp (fun _ _ => id)
    fun _ _ impossible => impossible.1) ?_
  rintro status after ⟨clears, reaches, registers⟩
  split
  next open_ =>
    have leads := reaches.leads open_
    have afterFit := leads.fit openedFit
    have sofar := clears afterFit.isOpen
    have ableNow : simplifier.engine.Clears after.engine ∨
        after.engine.settings.twoSat = true := by
      rcases sofar with cleared | missed
      · exact .inl cleared
      · right
        rw [leads.settings]
        cases able with
        | twoSat on => exact on
        | current none =>
          have applied : Probing.Applied simplifier.engine := ⟨none, fit.settled⟩
          exact absurd ⟨none, Engine.not_rup_of_applied fit.toSound applied⟩ missed.uncleared
        | stage some_ mayRun =>
          obtain ⟨stage, member, mayRun⟩ := mayRun
          have idle := missed.idle
          rw [begun.passes, if_neg (Nat.pos_iff_ne_zero.1 some_)] at idle
          exact absurd mayRun (idle stage member)
    refine .bind (finish_clears afterFit (registers.interrupted.trans running)
      (sofar.imp id Missed.formula) ableNow) ?_
    intro _ finished cleared
    refine close_queue.imp ?_ fun _ _ => id
    rintro answer last ⟨rfl, queue, unsat⟩
    exact ⟨rfl, fun isOpen => (cleared (unsat.symm.trans isOpen)).of_same queue⟩
  next closed =>
    rcases reaches.decides with ⟨open_, _⟩ | ⟨_, refutes⟩
    · exact absurd open_ closed
    refine close_queue.imp ?_ fun _ _ => id
    rintro answer last ⟨rfl, queue, unsat⟩
    refine ⟨rfl, fun isOpen => ?_⟩
    rw [unsat, refutes.unsat] at isOpen
    cases isOpen

/-- Make a run and look at what comes out. -/
def runTrial (inprocessing : Bool) (check : Status → Simplifier → Bool) (before : Simplifier) :
    Bool :=
  match run inprocessing before with
  | .done status after => check status after
  | _ => false

omit [Realm] in
/-- A trial shows a run. -/
theorem exists_of_runTrial {check : Status → Simplifier → Bool}
    (tried : runTrial inprocessing check before = true) :
    ∃ status after, run inprocessing before = .done status after ∧ check status after = true := by
  unfold runTrial at tried
  split at tried
  next status after ended => exact ⟨status, after, ended, tried⟩
  next => cases tried

omit [Realm] in
/-- After a run that got to apply the root literals and was not interrupted, the formula is
refuted, or all of the trail was applied and no live clause has a literal with a value.
A formula in which unit propagation finds a conflict is refuted. -/
theorem applied_of_able {settings : Settings} {start before after : Simplifier}
    {entries : List Dealt} {inprocessing : Bool} {status : Status}
    (begun : Begun settings start) (dealings : Dealings start entries before)
    (running : before.engine.interrupted = false) (able : before.Able)
    (ended : run inprocessing before = .done status after) :
    (status ≠ .unsat → after.engine.applied = after.engine.trail.literals.size ∧
      ∀ clause ∈ after.engine.arena.liveClauses, ∀ literal ∈ clause.literals,
        after.engine.trail.value? literal.var = some none) ∧
    (Rup before.engine.picture.formula [] → status = .unsat) := by
  obtain ⟨records, kept⟩ := dealings.exists_kept begun.fresh
  cases closed : before.engine.unsat with
  | true =>
    rw [run_of_closed closed] at ended
    cases ended
    exact ⟨fun open_ => absurd rfl open_, fun _ => rfl⟩
  | false =>
    let realm : Realm := .within before.engine.picture.Appears
    have fit := kept.standing.fit closed
    obtain ⟨rfl, clears⟩ := (run_clears fit running able).done_of_eq ended
    obtain ⟨_, decided⟩ := (run_ends fit).done_of_eq ended
    cases refuted : after.engine.unsat with
    | true =>
      have status : verdict after.engine = .unsat := by simp [verdict, refuted]
      rw [status]
      exact ⟨fun open_ => absurd rfl open_, fun _ => rfl⟩
    | false =>
      have cleared := clears refuted
      refine ⟨fun _ => ?_, fun conflict => absurd conflict cleared.consistent⟩
      rcases decided with simplified | isRefuted
      · have applied : Probing.Applied after.engine :=
          ⟨cleared.current, simplified.leads.settled fit.settled⟩
        have sound := simplified.leads.sound fit.toSound
        exact ⟨applied.applied_eq, fun clause live literal inside =>
          applied.open_of_live sound live inside⟩
      · rw [isRefuted.refutes.unsat] at refuted
        cases refuted

omit [Realm] in
/-- Subsumption sits out, since it was fruitless before, but unit propagation may run. -/
theorem applied_of_able_units :
    ∃ start entries before after,
      ofClauses { Settings.bare {} with subsumption := true } [[1, 2, 3], [1, 2], [-1, 4, 5]] =
        .done () start ∧
      Dealings start entries before ∧ before.MayRun .units ∧ ¬ before.MayRun .subsumption ∧
      run false before = .done .unknown after ∧
      after.engine.applied = after.engine.trail.literals.size ∧
      ∀ clause ∈ after.engine.arena.liveClauses, ∀ literal ∈ clause.literals,
        after.engine.trail.value? literal.var = some none := by
  obtain ⟨start, entries, before, made, dealings, checked⟩ := exists_of_dealTrial
    (ofClauses { Settings.bare {} with subsumption := true } [[1, 2, 3], [1, 2], [-1, 4, 5]])
    [.call (.addClause [-5]), .call (.run false)]
    (fun _ before => decide (before.engine.interrupted = false ∧ before.MayRun .units ∧
        ¬ before.MayRun .subsumption ∧ 0 < before.engine.settings.passes.toNat) &&
      runTrial false (fun status _ => status == .unknown) before) (by decide +kernel)
  obtain ⟨facts, tried⟩ := Bool.and_eq_true_iff.1 checked
  obtain ⟨running, units, subsumption, some_⟩ := of_decide_eq_true facts
  obtain ⟨status, after, ended, isUnknown⟩ := exists_of_runTrial tried
  obtain rfl := eq_of_beq isUnknown
  have applied := (applied_of_able (.formula made (by decide)) dealings running
    (.stage some_ ⟨.units, by decide, units⟩) ended).1 (by decide)
  exact ⟨start, entries, before, after, made, dealings, units, subsumption, ended, applied⟩

omit [Realm] in
/-- Unit propagation was fruitless in the first run and sits the second one out. What it
would have found is missed: the clauses have a literal with a value, and with it they
are refuted by unit propagation. -/
theorem unapplied_of_penalty :
    ∃ start entries before after,
      ofClauses (Settings.bare {}) [[1, 2], [1, -2]] = .done () start ∧
      Dealings start entries before ∧ 1 ≤ before.engine.settings.passes.toNat ∧
      before.engine.interrupted = false ∧ run false before = .done .unknown after ∧
      after.engine.applied ≠ after.engine.trail.literals.size ∧
      (∃ clause ∈ after.engine.arena.liveClauses, ∃ literal ∈ clause.literals,
        after.engine.trail.value? literal.var = some (some false)) ∧
      Rup before.engine.picture.formula [] := by
  obtain ⟨start, entries, before, made, dealings, checked⟩ := exists_of_dealTrial
    (ofClauses (Settings.bare {}) [[1, 2], [1, -2]])
    [.call (.addClause [-1]), .call (.run false)]
    (fun _ before => decide (1 ≤ before.engine.settings.passes.toNat ∧
        before.engine.interrupted = false ∧ Literal.ofInt (-1) ∈ before.engine.trail.facts ∧
        [Literal.ofInt 1, Literal.ofInt 2] ∈
          before.engine.arena.liveClauses.map Clause.literals ∧
        [Literal.ofInt 1, Literal.ofInt (-2)] ∈
          before.engine.arena.liveClauses.map Clause.literals) &&
      runTrial false (fun status after => decide (status = .unknown ∧
        after.engine.applied ≠ after.engine.trail.literals.size ∧
        ∃ clause ∈ after.engine.arena.liveClauses, ∃ literal ∈ clause.literals,
          after.engine.trail.value? literal.var = some (some false))) before) (by decide +kernel)
  obtain ⟨facts, tried⟩ := Bool.and_eq_true_iff.1 checked
  obtain ⟨passes, running, fact, first, second⟩ := of_decide_eq_true facts
  obtain ⟨status, after, ended, outcome⟩ := exists_of_runTrial tried
  obtain ⟨rfl, behind, valued⟩ := of_decide_eq_true outcome
  refine ⟨start, entries, before, after, made, dealings, passes, running, ended, behind, valued, ?_⟩
  have stored : ∀ literals ∈ before.engine.arena.liveClauses.map Clause.literals,
      literals ∈ before.engine.picture.formula := by
    intro literals member
    obtain ⟨clause, live, rfl⟩ := List.mem_map.1 member
    exact .inl (Arena.literals_mem_contents live)
  have notFirst : Propagates before.engine.picture.formula ∅ (Literal.ofInt 1).complement :=
    .unit (.inr ⟨_, fact, rfl⟩) (List.mem_singleton_self _) fun other member different =>
      absurd (List.mem_singleton.1 member) different
  have notSecond : Propagates before.engine.picture.formula ∅ (Literal.ofInt 2).complement := by
    refine .unit (stored _ second) (by decide) fun other member different => ?_
    obtain rfl : other = Literal.ofInt 1 := by
      rcases List.mem_cons.1 member with first | last
      · exact first
      · exact absurd (List.mem_singleton.1 last) different
    exact notFirst
  refine ⟨_, stored _ first, ?_⟩
  rw [negations_nil]
  exact List.forall_mem_cons.2 ⟨notFirst, List.forall_mem_cons.2 ⟨notSecond, nofun⟩⟩

end Simplifier

end CnfSimplifier
