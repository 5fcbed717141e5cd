import CnfSimplifier.Proofs.RootPropagation

/-!
# How a technique ends

A technique that works ends in one of three ways. The formula went over to another
one by steps; or it was refuted, and then the proof ends with the empty clause, and
records and variables are those of the refuted formula; or a removed variable was
in the way, which is remembered.
-/
namespace CnfSimplifier

variable [Realm]

namespace Engine

variable {scope : Scope} {before after : Engine} {status : Status}

/-- The formula was refuted: the proof ends with the empty clause. -/
structure Refutes (scope : Scope) (before after : Engine) : Prop where
  goes : before.Goes scope { after with unsat := before.unsat }
  reached : ∃ log, Steps scope before.picture { after.picture with log := log }
  refuted : ∃ picture, Steps scope before.picture picture ∧ Rup picture.formula [] ∧
    after.picture.log = picture.log.map
      (· ++ if before.unsat then [] else [ProofStep.added []]) ∧
    picture.records = after.picture.records ∧ picture.removed = after.picture.removed ∧
    picture.frozen = after.picture.frozen ∧ picture.numVars = after.picture.numVars
  unsat : after.unsat = true

/-- A removed variable was in the way. -/
structure Breaks (scope : Scope) (before after : Engine) : Prop where
  lenient : Realm.Lenient
  goes : before.Goes scope { after with poisoned := before.poisoned }
  reached : ∃ log, Steps scope before.picture { after.picture with log := log }

/-- The formula went over to another one by steps, or it was refuted. -/
def Decides (scope : Scope) (before : Engine) (status : Status) (after : Engine) : Prop :=
  (status ≠ .unsat ∧ before.Leads scope after ∧ (status = .sat → after.arena.active = 0)) ∨
    (status = .unsat ∧ before.Refutes scope after)

/-- What a technique that worked has come to. -/
def Concludes (scope : Scope) (before : Engine) (status : Status) (after : Engine) : Prop :=
  before.Decides scope status after ∨ (status = .unknown ∧ before.Breaks scope after)

/-- Where no clause may mention a removed variable none is in the way. -/
theorem Concludes.of_strict (concludes : Concludes scope before status after)
    (strict : ¬ Realm.Lenient) : before.Decides scope status after :=
  concludes.resolve_right fun ⟨_, breaks⟩ => strict breaks.lenient

theorem Refutes.to_removal (refutes : Refutes scope before after) :
    Refutes .removal before after := by
  obtain ⟨goes, ⟨log, reached⟩, ⟨picture, steps, rest⟩, unsat⟩ := refutes
  exact ⟨goes.to_removal, ⟨log, Steps.to_removal reached⟩, ⟨picture, Steps.to_removal steps, rest⟩,
    unsat⟩

/-- A conclusion holds in the widest scope as well. -/
theorem Concludes.to_removal (concludes : Concludes scope before status after) :
    Concludes .removal before status after := by
  rcases concludes with (⟨open_, leads, empty⟩ | ⟨closed, refutes⟩) | ⟨unknown, breaks⟩
  · exact .inl (.inl ⟨open_, leads.to_removal, empty⟩)
  · exact .inl (.inr ⟨closed, refutes.to_removal⟩)
  · obtain ⟨lenient, goes, log, reached⟩ := breaks
    exact .inr ⟨unknown, lenient, goes.to_removal, log, Steps.to_removal reached⟩

/-- What is decided later is decided from the start. -/
theorem Leads.then_decides {middle : Engine} (first : Leads scope before middle)
    (second : Decides scope middle status after) : Decides scope before status after := by
  rcases second with ⟨open_, leads, empty⟩ | ⟨closed, refutes⟩
  · exact .inl ⟨open_, first.trans leads, empty⟩
  · obtain ⟨goes, ⟨log, reached⟩, ⟨picture, steps, rest⟩, unsat⟩ := refutes
    rw [first.unsat] at goes rest
    exact .inr ⟨closed, first.toGoes.trans goes, ⟨log, first.steps.trans reached⟩,
      ⟨picture, first.steps.trans steps, rest⟩, unsat⟩

/-- What is known after a computation that works was attempted. -/
def Attempted (scope : Scope) (before : Engine) (result : Except Error Unit)
    (after : Engine) : Prop :=
  match result with
  | .ok () => before.Leads scope after
  | .error cause => before.Fails scope after cause

/-- Notices do not matter after a failure either. -/
theorem Attempted.of_same {result : Except Error Unit} {later : Engine}
    (attempted : Attempted scope before result after) (arena : later.arena = after.arena)
    (index : later.index = after.index) (trail : later.trail = after.trail)
    (records : later.records = after.records) (proof : later.proof = after.proof)
    (unsat : later.unsat = after.unsat) (poisoned : later.poisoned = after.poisoned)
    (settings : later.settings = after.settings) (applied : later.applied = after.applied) :
    Attempted scope before result later := by
  have picture := picture_eq_of_same arena trail records proof
  have further : ∀ goes : before.Goes scope after, before.Goes scope later := fun goes =>
    goes.trans (.of_same goes.inStep arena index trail records proof unsat poisoned settings applied)
  match result, attempted with
  | .ok (), leads =>
    refine ⟨further leads.toGoes, ?_, ?_⟩
    · rw [picture]
      exact leads.steps
    · rw [picture, applied]
      exact leads.applied
  | .error cause, fails =>
    refine ⟨further fails.toGoes, ?_, ?_⟩
    · rw [picture]
      exact fails.reached
    · unfold Refuted
      rw [picture]
      exact fails.reason

/-- Drawing the conclusion from an attempt. -/
theorem conclude_ends {result : Except Error Unit}
    (attempted : Attempted scope before result after) :
    (conclude result).Ends after (fun status final => Concludes scope before status final)
      fun _ _ => False := by
  match result, attempted with
  | .ok (), leads =>
    by_cases empty : after.arena.isEmpty = true
    · have ended : conclude (.ok ()) after = .done .sat after := by
        simp only [conclude, look, empty, if_true]
      exact .of_done ended (.inl (.inl ⟨by decide, leads, fun _ => eq_of_beq empty⟩))
    · have ended : conclude (.ok ()) after = .done .unknown after := by
        simp only [conclude, look, empty, if_false, Bool.false_eq_true]
      exact .of_done ended (.inl (.inl ⟨by decide, leads, nofun⟩))
  | .error cause, fails =>
    obtain ⟨goes, ⟨log, reached⟩, reason⟩ := fails
    rcases reason with ⟨isUnsat, picture, steps, refuted, sameLog, same⟩ | ⟨lenient, message, rfl⟩
    · unfold conclude
      dsimp only
      rw [if_pos isUnsat]
      refine .step rfl ?_
      by_cases already : after.unsat = true
      · rw [if_pos already]
        have unsat : before.unsat = true := goes.unsat.symm.trans already
        refine .step rfl (.pure (.inl (.inr ⟨rfl, ?_, ⟨log, reached⟩, ⟨picture, steps, refuted, ?_,
          same⟩, already⟩)))
        · rw [unsat, ← already]
          exact goes
        · rw [if_pos unsat, sameLog]
          simp
      · rw [if_neg already]
        have unsat : ¬ before.unsat = true := fun wrong => already (goes.unsat.trans wrong)
        refine .step rfl (.step rfl (.pure (.inl (.inr ⟨rfl, ?_, ⟨log, reached⟩, ⟨picture, steps,
          refuted, ?_, same⟩, rfl⟩))))
        · refine goes.trans ⟨goes.inStep.of_same rfl rfl rfl rfl, fun _ => .of_subset (.refl _) rfl
            subset_rfl fun _ => id, id, id, id, goes.unsat.symm, rfl, rfl⟩
        · rw [if_neg unsat, sameLog]
          simp [Engine.picture, Function.comp_def]
    · have other : ¬ (Error.invariantBroken message).isUnsat = true := Bool.false_ne_true
      unfold conclude
      dsimp only
      rw [if_neg other]
      refine .step rfl (.step rfl (.pure (.inr ⟨rfl, lenient, ?_, log, reached⟩)))
      exact goes.trans ⟨goes.inStep.of_same rfl rfl rfl rfl, fun _ => .of_subset (.refl _) rfl
        subset_rfl fun _ => id, id, id, id, rfl, goes.poisoned.symm, rfl⟩

end Engine

variable {σ τ : Type} {scope : Scope} [HasEngine σ]

/-- A computation that works is attempted. -/
theorem Works.attempt {body : Run σ Unit} {state : σ} {post : Unit → σ → Prop}
    {failed : Error → σ → Prop} (sound : (engineOf state).Sound)
    (works : Works scope body state post) :
    body.attempt.Ends state
      (fun result after => (engineOf state).Attempted scope result (engineOf after)) failed := by
  refine .attempt ((works sound).imp (fun _ after => ?_) fun cause after fails => fails)
  rintro ⟨leads, _⟩
  exact leads

/-- Drawing the conclusion, with the tool at hand. -/
theorem Work.conclude_ends {before : Engine} {result : Except Error Unit}
    {state : Tool τ × Engine}
    (attempted : before.Attempted scope result state.2) :
    (liftM (Engine.conclude result) : Work τ Status).Ends state
      (fun status after => before.Concludes scope status after.2) fun _ _ => False := by
  have same : (liftM (Engine.conclude result) : Work τ Status) state =
      (Engine.conclude result state.2).mapState fun engine => (state.1, engine) := rfl
  exact .within same (Engine.conclude_ends attempted)

/-- A technique that works comes to a conclusion. -/
theorem Work.process_ends {base : Settings → UInt64} {body : Work τ Unit}
    {notice : Nat → Engine → Budget → Engine → Notice} {state : Tool τ × Engine}
    (sound : state.2.Sound)
    (works : ∀ tool, Works scope body (tool, state.2) fun _ _ => True) :
    (Work.process base body notice).Ends state
      (fun status after => state.2.Concludes scope status after.2) fun _ _ => False := by
  obtain ⟨tool, engine⟩ := state
  unfold Work.process
  refine .step rfl (.step rfl (.step rfl ?_))
  refine .bind (Works.attempt sound (works _)) fun result after attempted => ?_
  refine .step rfl (.step rfl (.step rfl ?_))
  exact conclude_ends (attempted.of_same rfl rfl rfl rfl rfl rfl rfl rfl rfl)

/-- Applying the root assignment comes to a conclusion. -/
theorem Units.process_ends {state : Tool Unit × Engine} (sound : state.2.Sound) :
    Units.process.Ends state (fun status after => state.2.Concludes scope status after.2)
      fun _ _ => False := by
  obtain ⟨tool, engine⟩ := state
  unfold Units.process
  refine .step rfl ?_
  refine .step (Work.cancelToRoot_of_sound sound) (.step rfl ?_)
  have attempted : ∀ tool : Tool Unit,
      (liftM (Engine.propagateUnits.attempt : Run Engine (Except Error Unit)) :
        Work Unit (Except Error Unit)).Ends (tool, engine)
        (fun result after => engine.Attempted scope result after.2) fun _ _ => False := by
    intro tool
    have same : (liftM (Engine.propagateUnits.attempt : Run Engine (Except Error Unit)) :
        Work Unit (Except Error Unit)) (tool, engine) =
        (Engine.propagateUnits.attempt engine).mapState fun engine => (tool, engine) := rfl
    exact .within same (Works.attempt sound Engine.works_propagateUnits)
  refine .bind (attempted _) fun result after attempted => ?_
  refine .step rfl (.step rfl ?_)
  exact Work.conclude_ends (attempted.of_same rfl rfl rfl rfl rfl rfl rfl rfl rfl)

end CnfSimplifier
