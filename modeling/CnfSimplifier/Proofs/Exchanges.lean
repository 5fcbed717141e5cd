import CnfSimplifier.Proofs.History
import CnfSimplifier.Proofs.SearchSolver
import CnfSimplifier.Proofs.SolverExchange

/-!
# Exchanges with a solver between calls

An exchange with a solver is one more thing that can be done to a simplifier, and the
clauses before and after it need have nothing to do with each other. What it leaves
alone is the same as for any call: variables that are protected stay, with their
numbers, and records choose none of them.

The solver of an exchange may hold anything, also integers that are no literals.
-/
namespace CnfSimplifier

namespace Simplifier

variable {before middle after simplifier : Simplifier} {records more further : List Record}

/-- What is left alone whatever becomes of the clauses. -/
structure Passes (before : Simplifier) (more : List Record) (after : Simplifier) : Prop where
  numVars : before.numVars ≤ after.numVars
  settings : after.engine.settings = before.engine.settings
  frozen : after.engine.trail.Frozen = before.engine.trail.Frozen
  removed : ∀ name, after.engine.trail.Removed name →
    before.engine.trail.Removed name ∨ ¬ before.engine.trail.Frozen name
  unprotected : ∀ record ∈ more, ¬ before.engine.trail.Frozen record.chosen.var
  within : ∀ record ∈ more, ∀ literal ∈ record.literals,
    0 < literal.var ∧ literal.var ≤ after.numVars
  numbered : ∀ name, 0 < name → before.Numbered name → before.engine.trail.Frozen name →
    after.Numbered name
  covered : before.Covered → after.Covered

namespace Passes

theorem trans (first : before.Passes more middle) (second : middle.Passes further after) :
    before.Passes (more ++ further) after where
  numVars := first.numVars.trans second.numVars
  settings := second.settings.trans first.settings
  frozen := second.frozen.trans first.frozen
  removed name removed := by
    rcases second.removed name removed with earlier | unfrozen
    · exact first.removed name earlier
    · exact .inr (first.frozen ▸ unfrozen)
  unprotected := List.forall_mem_append.2
    ⟨first.unprotected, fun record member => first.frozen ▸ second.unprotected record member⟩
  within := by
    refine List.forall_mem_append.2 ⟨fun record member literal inside => ?_, second.within⟩
    obtain ⟨positive, small⟩ := first.within record member literal inside
    exact ⟨positive, small.trans second.numVars⟩
  numbered name positive numbered frozen := second.numbered name positive
    (first.numbered name positive numbered frozen) (first.frozen ▸ frozen)
  covered covered := second.covered (first.covered covered)

end Passes

/-- New variables do not change the formula. -/
theorem Widens.passes {count : Nat} (widens : before.Widens count after) : before.Passes [] after where
  numVars := widens.le_numVars
  settings := widens.settings
  frozen := widens.frozen
  removed _ removed := .inl (widens.removed ▸ removed)
  unprotected := by simp
  within := by simp
  numbered name positive numbered frozen :=
    widens.renumbers.numbered positive (.inl numbered) (.inr (widens.frozen ▸ frozen))
  covered covered := widens.moves.covered covered (by simp)

theorem MakesRoom.passes {numbers : List Nat} (room : before.MakesRoom numbers after) :
    before.Passes [] after :=
  let ⟨_, widens⟩ := room.widens
  widens.passes

/-- What refills the clauses with the same ones passes. -/
theorem Refills.passes (refills : before.Refills after) : before.Passes [] after where
  numVars := refills.numVars.ge
  settings := refills.settings
  frozen := refills.frozen
  removed _ removed := .inl (refills.removed ▸ removed)
  unprotected := by simp
  within := by simp
  numbered name _ numbered _ := by
    unfold Numbered
    rw [refills.numbering]
    exact numbered
  covered := refills.covered

/-- A run leaves protected variables alone. -/
theorem Moves.passes (moves : Moves before [] more after)
    (frozen : after.engine.trail.Frozen = before.engine.trail.Frozen) :
    before.Passes more after where
  numVars := moves.numVars
  settings := moves.settings
  frozen := frozen
  removed := moves.removed
  unprotected := moves.unprotected
  within record member literal inside :=
    let ⟨positive, small, _⟩ := moves.within record member literal inside
    ⟨positive, small⟩
  numbered _ positive numbered isFrozen :=
    moves.renumbers.numbered positive (.inl numbered) (.inr (frozen ▸ isFrozen))
  covered covered := moves.covered covered (by simp)

/-! ## Conclusions -/

/-- What is concluded from a cause: the formula is refuted, or the cause is told. -/
inductive Notes (before : Simplifier) (cause : Error) : Status → Simplifier → Prop
  | refuted (isUnsat : cause.isUnsat = true) (proof : Option (Array ProofStep)) :
    Notes before cause .unsat
      { before with engine := { before.engine with unsat := true, proof := proof } }
  | told (notUnsat : cause.isUnsat = false) (notices : Array Notice) :
    Notes before cause .unknown { before with engine := { before.engine with notices := notices } }

/-- A refusal is noted. -/
theorem conclude_ends {cause : Error} (known : ∀ message, cause ≠ .invariantBroken message)
    {failed : Error → Simplifier → Prop} :
    (liftM (Engine.conclude (.error cause)) : Run Simplifier Status).Ends simplifier
      (fun status after => simplifier.Notes cause status after) failed := by
  refine ends_onEngine ?_
  unfold Engine.conclude
  dsimp only
  split
  next isUnsat =>
    refine .step rfl ?_
    split
    next already =>
      have same : simplifier.engine = { simplifier.engine with unsat := true } := by
        rw [← already]
      refine .step rfl (.pure ?_)
      have refuted := @Notes.refuted simplifier cause isUnsat simplifier.engine.proof
      rwa [← same] at refuted
    next => exact .step rfl (.step rfl (.pure (.refuted isUnsat _)))
  next open_ =>
    have notUnsat : cause.isUnsat = false := by simpa using open_
    split
    · exact .pure (.told notUnsat simplifier.engine.notices)
    next message => exact absurd rfl (known message)
    · exact .of_done rfl (.told notUnsat _)

/-- A noted refusal leaves the clauses. -/
theorem Notes.refills {cause : Error} {status : Status} (notes : before.Notes cause status after) :
    before.Refills after := by
  cases notes with
  | refuted _ proof =>
    exact ⟨rfl, rfl, rfl, rfl, rfl, rfl, id, fun standing => standing.refute rfl rfl⟩
  | told _ notices =>
    exact ⟨rfl, rfl, rfl, rfl, rfl, rfl, id,
      fun standing => standing.of_same rfl rfl rfl rfl rfl rfl rfl rfl rfl⟩

end Simplifier

namespace Solver

open Simplifier

variable {σ : Type} [Solver σ] {state : σ × Simplifier} {records : List Record}

/-! ## Exchanges -/

/-- Handing the formula back leaves the simplifier. -/
theorem handBack_keeps : (handBack σ).Ends state (fun _ after => after.2 = state.2)
    fun _ after => after.2 = state.2 := by
  have asks : ∀ (body : Run σ Unit) (solver : σ),
      (ask body).Ends (solver, state.2) (fun _ after => after.2 = state.2)
        fun _ after => after.2 = state.2 :=
    fun body solver => .onFirst (Run.Ends.trivial.imp (fun _ _ _ => rfl) fun _ _ _ => rfl)
  obtain ⟨solver, simplifier⟩ := state
  unfold handBack
  refine .step rfl ((asks _ solver).bind ?_)
  rintro _ ⟨given, _⟩ rfl
  refine (asks _ given).bind ?_
  rintro _ ⟨propagated, _⟩ rfl
  exact asks _ propagated

/-- Where the formula is replaced, all else is kept. -/
theorem Replaces.passes {numVars : Nat} {lists : List (List Int)} {before after : Simplifier}
    (replaces : Replaces before numVars lists after) (standing : before.Standing records) :
    before.Passes [] after ∧ after.Standing records := by
  obtain ⟨middle, room, refills⟩ := replaces.room
  exact ⟨room.passes.trans refills.passes, refills.standing (room.standing standing)⟩

/-- Where it is refused, all is kept. -/
theorem Refuses.passes {cause : Error} {after : σ × Simplifier} (refuses : Refuses state cause after)
    (standing : state.2.Standing records) :
    state.2.Passes [] after.2 ∧ after.2.Standing records := by
  obtain ⟨_, middle, room, refills, _⟩ := refuses.room
  exact ⟨room.passes.trans refills.passes, refills.standing (room.standing standing)⟩

omit [Solver σ] in
/-- Drawing a conclusion leaves what matters. -/
theorem conclude_passes {cause : Error} (known : ∀ message, cause ≠ .invariantBroken message)
    (standing : state.2.Standing records) {failed : Error → σ × Simplifier → Prop} :
    (conclude σ cause).Ends state (fun status after => after.1 = state.1 ∧
      state.2.Notes cause status after.2 ∧ state.2.Passes [] after.2 ∧
      after.2.Standing records) failed := by
  unfold conclude
  refine .onSecond ((conclude_ends known).imp (fun _ _ notes => ?_) fun _ _ held => held)
  exact ⟨rfl, notes, notes.refills.passes, notes.refills.standing standing⟩

end Solver

namespace SearchSolver

open Simplifier Solver

variable {solver : SearchSolver} {before : Simplifier} {records : List Record}

/-- The causes that there are for not taking a formula over from the small solver. -/
theorem known_of_refuses {cause : Error} {after : SearchSolver × Simplifier}
    (refuses : Refuses (solver, before) cause after) :
    cause.isUnsat = true ∨ cause = .invalidLiteral ∨ cause = .outOfRange := by
  cases refuses.reason with
  | untaken ended => cases ended
  | @unread clauses taken took back _ _ =>
    rcases back with refused | ⟨_, harmless⟩
    · obtain ⟨isEmpty, _⟩ := (giveAll_ends clauses).failed_of_eq refused
      exact .inl (isEmpty ▸ rfl)
    · exact .inr harmless
  | unstored _ reason =>
    rcases reason with ⟨isCause, _⟩ | ⟨isUnsat, _⟩
    · exact .inr (.inr isCause)
    · exact .inl isUnsat

theorem ne_invariantBroken {cause : Error}
    (known : cause.isUnsat = true ∨ cause = .invalidLiteral ∨ cause = .outOfRange) :
    ∀ message, cause ≠ .invariantBroken message := by
  rintro message rfl
  rcases known with isUnsat | isCause | isCause <;> cases ‹_›

end SearchSolver

namespace Solver

open Simplifier

variable {σ : Type} [Solver σ] {solver : σ} {before after : Simplifier} {records more : List Record}
  {failed : Error → σ × Simplifier → Prop}

/-- Asking the solver whether its formula is refuted does not concern the simplifier. -/
theorem isRefuted_keeps {state : σ × Simplifier} :
    (isRefuted σ).Ends state (fun _ after => after.2 = state.2) failed := by
  unfold isRefuted
  refine .step rfl ?_
  dsimp only
  split
  · refine .seq (.attempt (.onFirst (Run.Ends.trivial.imp (fun _ _ _ => ?_) fun _ _ _ => ?_)))
    · exact .pure rfl
    · exact .pure rfl
  · exact .pure rfl

/-- The simplifier went on to another one. -/
def GoesOn (before : Simplifier) (records : List Record) (after : Simplifier) : Prop :=
  ∃ more, before.Passes more after ∧ after.Standing (records ++ more)

theorem GoesOn.of_unmoved (passes : before.Passes [] after) (standing : after.Standing records) :
    GoesOn before records after :=
  ⟨[], passes, (List.append_nil records).symm ▸ standing⟩

/-- One step of an exchange follows another. -/
theorem GoesOn.then {middle : Simplifier} (first : GoesOn before records middle)
    (further : ∀ records, middle.Standing records →
      middle.Passes [] after ∧ after.Standing records) : GoesOn before records after := by
  obtain ⟨more, passes, standing⟩ := first
  obtain ⟨passesOn, standingOn⟩ := further _ standing
  have both := passes.trans passesOn
  rw [List.append_nil] at both
  exact ⟨more, both, standingOn⟩

omit [Solver σ] in
/-- A notice leaves everything. -/
theorem tell_passes {notice : Notice} {state : σ × Simplifier} :
    (liftM (liftM (Engine.tell notice) : Run Simplifier Unit) :
      Run (σ × Simplifier) Unit).Ends state
      (fun _ after => ∀ records, state.2.Standing records →
        state.2.Passes [] after.2 ∧ after.2.Standing records) failed :=
  Run.Ends.onSecond (Run.Ends.of_done rfl fun _ standing =>
    ⟨(refills_tell notice).passes, (refills_tell notice).standing standing⟩)

/-- Giving up pushes no record. -/
theorem giveUp_passes {cause : Error} (known : ∀ message, cause ≠ .invariantBroken message)
    (standing : before.Standing records) :
    (giveUp σ cause).Ends (solver, before)
      (fun _ after => before.Passes [] after.2 ∧ after.2.Standing records) failed := by
  unfold giveUp
  refine (conclude_passes known standing).bind ?_
  rintro status ⟨_, concluded⟩ ⟨_, _, passes, further⟩
  split
  · refine .seq (.attempt (handBack_keeps.imp ?_ ?_))
    · rintro _ ⟨_, _⟩ rfl
      exact .pure ⟨passes, further⟩
    · rintro _ ⟨_, _⟩ rfl
      refine tell_passes.bind fun _ after told => .pure ?_
      obtain ⟨passesOn, furtherOn⟩ := told _ further
      exact ⟨passes.trans passesOn, furtherOn⟩
  · exact .pure ⟨passes, further⟩

/-- A run passes its records on. -/
theorem simplifyAndHandBack_passes {inprocessing : Bool} (standing : before.Standing records) :
    (simplifyAndHandBack σ inprocessing).Ends (solver, before)
      (fun _ after => GoesOn before records after.2) failed := by
  unfold simplifyAndHandBack
  refine .seq (.onSecond ((run_moves standing).imp ?_ fun _ _ held => held))
  rintro status ran ⟨_, frozen, _, more, afterRun, moves⟩
  have goesOn : GoesOn before records ran := ⟨more, moves.passes frozen, afterRun⟩
  -- Room for the variables of the solver, and what the hand-over came to.
  refine .seq (.attempt (handBack_keeps.imp ?_ ?_))
  all_goals
    rintro ended ⟨last, _⟩ rfl
    refine .step rfl (.seq (.onSecond ((reserveExported_ends _
      afterRun.sane.trail.nonempty).imp ?_ fun _ _ held => held)))
    intro _ widened room
    have roomy : GoesOn before records widened :=
      goesOn.then fun _ standing => ⟨room.passes, room.standing standing⟩
  · exact .pure roomy
  · dsimp only
    split
    next isUnsat =>
      have known : ∀ message, ended ≠ .invariantBroken message := by
        rintro message rfl
        cases isUnsat
      refine (conclude_passes known (room.standing afterRun)).bind ?_
      rintro _ ⟨_, concluded⟩ ⟨_, notes, _⟩
      exact .pure (roomy.then fun _ standing => ⟨notes.refills.passes, notes.refills.standing standing⟩)
    · exact tell_passes.bind fun _ after told => .pure (roomy.then told)

end Solver

/-- An exchange with the small solver leaves protected variables alone, whatever the
solver holds. -/
theorem SearchSolver.roundTrip_passes {solver : SearchSolver} {before : Simplifier}
    {records : List Record} {inprocessing : Bool} (standing : before.Standing records)
    {failed : Error → SearchSolver × Simplifier → Prop} :
    (Solver.roundTrip SearchSolver inprocessing).Ends (solver, before)
      (fun _ after => Solver.GoesOn before records after.2) failed := by
  unfold Solver.roundTrip
  refine Solver.isRefuted_keeps.bind ?_
  rintro refuted ⟨asked, _⟩ rfl
  split
  · refine (Solver.conclude_passes (by simp) standing).bind fun _ after concluded => .pure ?_
    exact .of_unmoved concluded.2.2.1 concluded.2.2.2
  refine .seq (.attempt ((Solver.takeOver_ends standing).imp ?_ ?_))
  · rintro _ ⟨taken, replaced⟩ ⟨clauses, _, replaces⟩
    obtain ⟨passes, further⟩ := replaces.passes standing
    refine (Solver.simplifyAndHandBack_passes further).imp (fun _ after goesOn => ?_)
      fun _ _ held => held
    obtain ⟨more, passesOn, standingOn⟩ := goesOn
    exact ⟨more, passes.trans passesOn, standingOn⟩
  · rintro cause ⟨last, refused⟩ refuses
    obtain ⟨passes, further⟩ := refuses.passes standing
    have known := ne_invariantBroken (known_of_refuses refuses)
    refine (Solver.giveUp_passes known further).imp (fun _ after concluded => ?_)
      fun _ _ held => held
    exact .of_unmoved (passes.trans concluded.1) concluded.2

end CnfSimplifier
