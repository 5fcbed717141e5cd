import CnfSimplifier.Proofs.CountedTechniques
import CnfSimplifier.Proofs.Dealings

/-!
# Passes that change nothing

Between the techniques of a pass the arena may be compacted, which gives the live
clauses other places and is not counted. Up to that a pass that counts no change is
one that made none, so the run may stop after it.
-/
namespace CnfSimplifier

namespace Engine

/-- The same live clauses in the same order, the same trail, records and marks. -/
structure SameFormula (before after : Engine) : Prop where
  clauses : after.arena.liveClauses.map Clause.literals =
    before.arena.liveClauses.map Clause.literals
  literals : after.trail.literals = before.trail.literals
  levels : after.trail.levels = before.trail.levels
  values : ∀ name, 0 < name → after.trail.value? name = before.trail.value? name
  flags : before.trail.SameFlags after.trail
  records : after.records = before.records

/-- A part of a run leaves the settings and the interrupt flag, and counts its
changes. -/
structure Registers (before after : Engine) : Prop where
  settings : after.settings = before.settings
  interrupted : after.interrupted = before.interrupted
  grows : before.changes ≤ after.changes
  same : after.changes = before.changes → before.SameFormula after

variable {before middle after : Engine}

theorem Still.sameFormula (still : before.Still after) : before.SameFormula after :=
  ⟨still.clauses.liveClauses, still.literals, still.levels, still.values, still.flags,
    still.records⟩

theorem SameFormula.trans (first : before.SameFormula middle)
    (second : middle.SameFormula after) : before.SameFormula after where
  clauses := second.clauses.trans first.clauses
  literals := second.literals.trans first.literals
  levels := second.levels.trans first.levels
  values name positive := (second.values name positive).trans (first.values name positive)
  flags := first.flags.trans second.flags
  records := second.records.trans first.records

theorem Counts.registers (counts : before.Counts after) : before.Registers after :=
  ⟨counts.settings, counts.interrupted, counts.grows, fun same => (counts.still same).sameFormula⟩

theorem Registers.trans (first : before.Registers middle) (second : middle.Registers after) :
    before.Registers after where
  settings := second.settings.trans first.settings
  interrupted := second.interrupted.trans first.interrupted
  grows := first.grows.trans second.grows
  same stands := by
    have stood : middle.changes = before.changes :=
      le_antisymm (stands ▸ second.grows) first.grows
    exact (first.same stood).trans (second.same (stands.trans stood.symm))

/-- Notices, the mode of the run and the like are no changes. -/
theorem Registers.of_same (arena : after.arena = before.arena) (trail : after.trail = before.trail)
    (records : after.records = before.records) (settings : after.settings = before.settings)
    (interrupted : after.interrupted = before.interrupted)
    (changes : after.changes = before.changes) : before.Registers after :=
  (Uncounted.counts ⟨settings, interrupted, changes⟩ (.of_same arena trail records)).registers

theorem Registers.refl (engine : Engine) : engine.Registers engine :=
  .of_same rfl rfl rfl rfl rfl rfl

end Engine

namespace Simplifier

variable {simplifier : Simplifier}

/-- A compaction keeps the live clauses in their order. -/
theorem Collects.registers {after : Simplifier} (collects : simplifier.Collects after) :
    simplifier.engine.Registers after.engine := by
  cases collects with
  | kept => exact .refl _
  | moved relocated carried =>
    refine ⟨rfl, rfl, Nat.le_refl _, fun _ => ?_⟩
    refine { Engine.Still.sameFormula (.refl simplifier.engine) with clauses := ?_ }
    simp [Arena.liveClauses, Arena.compact, List.filter_filter]

variable [Realm]

/-- A technique that runs counts its changes; sitting the round out is none. -/
theorem runTechnique_registers {technique : Technique} (fit : simplifier.engine.Fit) :
    (runTechnique technique).Ends simplifier
      (fun _ after => simplifier.engine.Registers after.engine)
      fun _ after => simplifier.engine.Registers after.engine := by
  unfold runTechnique
  refine .step rfl ?_
  rcases (simplifier.tools.budget technique).mayRun with ⟨mayRun, budget⟩
  refine .seq (updateTools_ends fun tools budgeted => ?_)
  cases mayRun with
  | false => exact .step rfl (.pure (.of_same rfl rfl rfl rfl rfl rfl))
  | true =>
    refine .step rfl (.seq (ends_onTools ?_))
    refine (Toolbox.process_counts technique fit.toSound fun _ => fit.settled).imp ?_ ?_
    · rintro status ⟨tools, engine⟩ counts
      refine .step rfl (.seq (updateTools_ends fun tools budgeted => ?_))
      refine .step rfl (.step rfl (.pure (counts.registers.trans ?_)))
      exact .of_same rfl rfl rfl rfl rfl rfl
    · exact fun _ _ counts => counts.registers

/-- Stages count their changes one after the other. -/
theorem runStages_registers {pass : Nat} (stages : List Stage) (fit : simplifier.engine.Fit) :
    (runStages pass stages).Ends simplifier
      (fun _ after => simplifier.engine.Registers after.engine)
      fun _ after => simplifier.engine.Registers after.engine := by
  induction stages generalizing simplifier with
  | nil => exact .pure (.refl _)
  | cons stage rest ih =>
    unfold runStages
    refine .step rfl ?_
    dsimp only
    split
    · exact .step rfl (.pure (.of_same rfl rfl rfl rfl rfl rfl))
    split
    · exact ih fit
    next technique found =>
      have ran := (runTechnique_registers fit).and
        (runTechnique_ends (Stage.technique?_ne_renumbering found) fit)
      refine Run.Ends.bind (ran.imp (fun _ _ => id) fun _ _ => And.left) ?_
      rintro status after ⟨registers, reaches⟩
      split
      · exact .pure registers
      · exact .pure registers
      next notUnsat _ =>
        have open_ : status.getD .unknown ≠ .unsat := by
          cases status with
          | none => decide
          | some status => exact fun closed => notUnsat (congrArg some closed)
        have leads := reaches.leads open_
        refine .step rfl ?_
        split
        · exact .pure registers
        refine Run.Ends.bind collectGarbage_collects fun _ tidy collects => ?_
        have sofar := registers.trans collects.registers
        have onward := leads.trans (collects.tidies.leads leads.inStep)
        exact (ih (onward.fit fit)).imp (fun _ _ => sofar.trans) fun _ _ => sofar.trans

/-- Passes count their changes one after the other. -/
theorem runPasses_registers (remaining pass : Nat) (fit : simplifier.engine.Fit) :
    (runPasses remaining pass).Ends simplifier
      (fun _ after => simplifier.engine.Registers after.engine)
      fun _ after => simplifier.engine.Registers after.engine := by
  induction remaining generalizing pass simplifier with
  | zero => exact .pure (.refl _)
  | succ remaining ih =>
    unfold runPasses
    have counting : (runStages pass stages).Ends simplifier _ _ := runStages_registers stages fit
    have ran := counting.and (runStages_ends stages fit)
    refine .step rfl (Run.Ends.bind (ran.imp (fun _ _ => id) fun _ _ => And.left) ?_)
    rintro ended after ⟨registers, reaches⟩
    cases ended with
    | stopped status => exact .pure registers
    | complete =>
      have told : ∀ notice, simplifier.engine.Registers { after.engine with
          notices := after.engine.notices.push notice } := fun _ =>
        registers.trans (.of_same rfl rfl rfl rfl rfl rfl)
      refine .step rfl (.step rfl ?_)
      split
      · exact .pure (told _)
      · have fitNow := (reaches.leads (by decide)).fit fit
        exact Run.Ends.imp (ih (pass + 1) (fitNow.tell _)) (fun _ _ => (told _).trans)
          fun _ _ => (told _).trans

/-! ## The counter misses no change -/

/-- Take an engine at the root whose parts are in step and whose applied root literals
are out of the clauses. If a technique leaves its counter, it leaves the live clauses
in their slots, the trail, the records and the marks of the variables. If all stages of
a pass leave the counter, the pass leaves all of this but the slots, which a compaction
may change. -/
theorem unchanged_of_uncounted (sound : simplifier.engine.Sound)
    (settled : simplifier.engine.Settled) :
    (∀ technique status after,
      Toolbox.process technique (simplifier.tools, simplifier.engine) = .done status after →
      after.2.changes = simplifier.engine.changes → simplifier.engine.Still after.2) ∧
    (simplifier.engine.Fit → ∀ pass ended after,
      runStages pass stages simplifier = .done ended after →
      after.engine.changes = simplifier.engine.changes →
      simplifier.engine.SameFormula after.engine) := by
  constructor
  · intro technique status after ended stands
    have counts : (Toolbox.process technique).Ends (simplifier.tools, simplifier.engine) _ _ :=
      Toolbox.process_counts technique sound fun _ => settled
    exact (counts.done_of_eq ended).still stands
  · intro fit pass status after ended stands
    exact ((runStages_registers stages fit).done_of_eq ended).same stands

omit [Realm] in
/-- Nothing can be found out by probing, and nothing is subsumed. -/
theorem unchanged_of_uncounted_idle :
    ∃ start status probed ended after,
      ofClauses { Settings.bare {} with subsumption := true, probing := true }
        [[1, 2, 3], [-1, -2]] = .done () start ∧
      Toolbox.process .probing (start.tools, start.engine) = .done status probed ∧
      start.engine.Still probed.2 ∧
      runStages 1 stages start = .done ended after ∧
      start.engine.SameFormula after.engine := by
  obtain ⟨_, start, made, isOpen, ⟨status, probed, probes, idle⟩, ended, after, passes, unchanged⟩ :
      (addClauses [[1, 2, 3], [-1, -2]]).Returns
        (.ofVars { Settings.bare {} with subsumption := true, probing := true } 3)
        fun _ start => start.engine.unsat = false ∧
          ((Toolbox.process .probing).Returns (start.tools, start.engine) fun _ probed =>
            probed.2.changes = start.engine.changes) ∧
          (runStages 1 stages).Returns start fun _ after =>
            after.engine.changes = start.engine.changes := by
    decide +kernel
  have fit := (fresh_of_ofClauses made (by decide)).standing.fit isOpen
  let realm : Realm := .within start.engine.picture.Appears
  have keeps := unchanged_of_uncounted fit.toSound fit.settled
  exact ⟨start, status, probed, ended, after, made, probes, keeps.1 _ _ _ probes idle, passes,
    keeps.2 fit _ _ _ passes unchanged⟩

end Simplifier

end CnfSimplifier
