import CnfSimplifier.Proofs.Dealings

/-!
# A formula that is not taken over

Before it gives its clauses up a simplifier reads those of the solver. If one of them
has a literal that cannot be read, the solver gets its clauses back and the simplifier
still has its own.

The reading misses one integer: the least one of 32 bits is not zero, but twice its
absolute value is, and without a numbering in effect nothing before the storing of
clauses looks at the variable that it names.
-/
namespace CnfSimplifier

/-- The integers of 32 bits. -/
def IsInt32 (value : Int) : Prop := -2 ^ 31 ≤ value ∧ value < 2 ^ 31

instance (value : Int) : Decidable (IsInt32 value) :=
  inferInstanceAs (Decidable (_ ∧ _))

/-- All but the least of the integers that are not zero have a variable. -/
theorem Literal.var_ofInt_pos {value : Int} (fits : IsInt32 value) (nonzero : value ≠ 0)
    (notLeast : value ≠ -2 ^ 31) : 0 < (ofInt value).var := by
  obtain ⟨lower, upper⟩ := fits
  have small : value.natAbs < 2 ^ 31 := by omega
  rw [var_ofInt nonzero small]
  omega

namespace SearchSolver

open Simplifier Solver

variable {solver left : SearchSolver} {start before after : Simplifier} {entries : List Dealt}

/-- The integers on the trail and in the clauses of a solver. -/
def integers (solver : SearchSolver) : List Int := solver.trail ++ solver.clauses.flatten

/-- If every integer has a variable, a formula that is not taken over was not touched:
the solver has its clauses, and the simplifier has its own, its root literals and its
records; at most variables came in. -/
theorem unmoved_of_refused {settings : Settings} {cause : Error} (begun : Begun settings start)
    (dealings : Dealings start entries before) (fits : ∀ value ∈ solver.integers, IsInt32 value)
    (named : before.numbering.isActive = true ∨ -2 ^ 31 ∉ solver.integers)
    (refused : takeOver SearchSolver (solver, before) = .failed cause (left, after))
    (notRefuted : cause.isUnsat = false) :
    left.clauses = solver.clauses ∧
    after.engine.arena.liveClauses = before.engine.arena.liveClauses ∧
    after.engine.trail.rootLiterals = before.engine.trail.rootLiterals ∧
    after.engine.records = before.engine.records ∧
    before.numVars ≤ after.numVars := by
  obtain ⟨_, kept⟩ := dealings.exists_kept begun.fresh
  have refuses := (takeOver_ends (σ := SearchSolver) kept.standing).failed_of_eq refused
  obtain ⟨_, middle, room, refills, _⟩ := refuses.room
  obtain ⟨_, widens⟩ := room.widens
  have records : after.engine.records = before.engine.records :=
    refills.records.trans (congrArg Picture.records widens.picture)
  have numVars : before.numVars ≤ after.numVars := room.le_numVars.trans refills.numVars.ge
  cases refuses.reason with
  | untaken ended => cases ended
  | unread took back arena rootLiterals _ =>
    cases took
    rcases back with isEmpty | ⟨given, _⟩
    · rw [((giveAll_ends solver.clauses).failed_of_eq isEmpty).1] at notRefuted
      cases notRefuted
    · have gains := (giveAll_ends solver.clauses).done_of_eq given
      exact ⟨gains.clauses, congrArg Arena.liveClauses arena, rootLiterals, records, numVars⟩
  | unstored took reason =>
    cases took
    rcases reason with ⟨_, inactive, value, member, nonzero, unnamed⟩ | ⟨isUnsat, _⟩
    · have inside : value ∈ solver.integers := by
        have same : (handed solver solver.clauses).flatten = solver.integers := by
          unfold handed integers
          rw [List.flatten_append, ← List.flatMap_def, List.flatMap_singleton']
          rfl
        exact same ▸ member
      rcases named with active | notThere
      · rw [active] at inactive
        cases inactive
      · refine absurd unnamed (Literal.var_ofInt_pos (fits value inside) nonzero ?_).ne'
        rintro rfl
        exact notThere inside
    · rw [isUnsat] at notRefuted
      cases notRefuted

/-- Take a formula over from a solver, and look at what is left if this fails. -/
def refusal (solver : SearchSolver) (before : Simplifier)
    (check : Error → SearchSolver → Simplifier → Bool) : Bool :=
  match takeOver SearchSolver (solver, before) with
  | .failed cause after => check cause after.1 after.2
  | _ => false

/-- A trial shows a formula that is not taken over. -/
theorem exists_of_refusal {check : Error → SearchSolver → Simplifier → Bool}
    (tried : refusal solver before check = true) : ∃ cause left after,
      takeOver SearchSolver (solver, before) = .failed cause (left, after) ∧
      check cause left after = true := by
  unfold refusal at tried
  split at tried
  next cause after ended => exact ⟨cause, after.1, after.2, ended, tried⟩
  next => cases tried

/-- A solver that mentions a variable which was substituted meanwhile. -/
theorem unmoved_of_refused_substituted :
    ∃ start entries before cause left after,
      ofClauses { Settings.bare {} with equivalences := true } [[2, -5], [-2, 5], [1, 2], [-1, 3]] =
        .done () start ∧
      Dealings start entries before ∧ before.engine.trail.substituted = 1 ∧
      takeOver SearchSolver ({ numVars := 6, clauses := [[1, 3], [5, 6]], trail := [-4] }, before) =
        .failed cause (left, after) ∧
      left.clauses = [[1, 3], [5, 6]] ∧
      after.engine.arena.liveClauses = before.engine.arena.liveClauses ∧
      before.engine.arena.liveClauses.length = 2 ∧ after.numVars = 6 := by
  obtain ⟨start, entries, before, made, dealings, checked⟩ := exists_of_dealTrial
    (ofClauses { Settings.bare {} with equivalences := true } [[2, -5], [-2, 5], [1, 2], [-1, 3]])
    [.call (.run false), .call (.freeze 2)]
    (fun _ before => decide (before.engine.trail.substituted = 1 ∧
        before.engine.arena.liveClauses.length = 2) &&
      refusal { numVars := 6, clauses := [[1, 3], [5, 6]], trail := [-4] } before
        fun cause _ after => decide (cause.isUnsat = false ∧ after.numVars = 6)) (by decide +kernel)
  obtain ⟨facts, tried⟩ := Bool.and_eq_true_iff.1 checked
  obtain ⟨substituted, length⟩ := of_decide_eq_true facts
  obtain ⟨cause, left, after, refused, outcome⟩ := exists_of_refusal tried
  obtain ⟨notRefuted, numVars⟩ := of_decide_eq_true outcome
  obtain ⟨clauses, arena, _⟩ := unmoved_of_refused (.formula made (by decide)) dealings (by decide)
    (.inr (by decide)) refused notRefuted
  exact ⟨start, entries, before, cause, left, after, made, dealings, substituted, refused, clauses,
    arena, length, numVars⟩

/-- The least integer of 32 bits is found out too late: the solver has lost its clauses, and
so has the simplifier. -/
theorem moved_of_refused_least :
    ∃ start entries before cause left after,
      ofClauses (Settings.bare {}) [[1, 2]] = .done () start ∧ Dealings start entries before ∧
      before.engine.unsat = false ∧
      (∀ value ∈ integers { clauses := [[1, -2147483648], [-1, -2]] }, IsInt32 value) ∧
      takeOver SearchSolver ({ numVars := 2, clauses := [[1, -2147483648], [-1, -2]] }, before) =
        .failed cause (left, after) ∧
      cause.isUnsat = false ∧ left.clauses = [] ∧
      before.engine.arena.liveClauses.length = 1 ∧ after.engine.arena.liveClauses.length = 0 := by
  obtain ⟨start, entries, before, made, dealings, checked⟩ := exists_of_dealTrial
    (ofClauses (Settings.bare {}) [[1, 2]]) []
    (fun _ before => decide (before.engine.unsat = false ∧
        before.engine.arena.liveClauses.length = 1) &&
      refusal { numVars := 2, clauses := [[1, -2147483648], [-1, -2]] } before
        fun cause left after => decide (cause.isUnsat = false ∧ left.clauses = [] ∧
          after.engine.arena.liveClauses.length = 0)) (by decide +kernel)
  obtain ⟨facts, tried⟩ := Bool.and_eq_true_iff.1 checked
  obtain ⟨isOpen, one⟩ := of_decide_eq_true facts
  obtain ⟨cause, left, after, refused, outcome⟩ := exists_of_refusal tried
  obtain ⟨notRefuted, noClauses, zero⟩ := of_decide_eq_true outcome
  exact ⟨start, entries, before, cause, left, after, made, dealings, isOpen, by decide, refused,
    notRefuted, noClauses, one, zero⟩

end SearchSolver

end CnfSimplifier
