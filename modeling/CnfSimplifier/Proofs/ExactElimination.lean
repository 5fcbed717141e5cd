import CnfSimplifier.Proofs.Elimination
import CnfSimplifier.Proofs.Extension
import CnfSimplifier.Proofs.KeptEquivalence

/-!
# Eliminating a variable is existential quantification

An attempt to eliminate a variable may end in many ways: the variable goes, or only
blocked clauses do, or the attempt is given up at some limit with part of the work done.
In each of them the root literals and the irredundant clauses say the same about the
other variables as before, and the records that the attempt pushed turn any model of
what is left into one of what was there by changing the variable at most.

Nothing is asked of the redundant clauses. No resolvent is built from them, and they
only ever keep a clause from being blocked.
-/
namespace CnfSimplifier

namespace Engine

variable {engine after : Engine} {pivot : Nat}

/-- What is left of an engine says about all variables but one what was said before. -/
structure Projects (engine : Engine) (pivot : Nat) (after : Engine) : Prop where
  /-- With some value of the variable an assignment is a model now if it was one before. -/
  exists_iff : ∀ values,
    (∃ value, after.CoreSatisfied (Function.update values pivot value)) ↔
      ∃ value, engine.CoreSatisfied (Function.update values pivot value)
  /-- Replaying the new records, last first, makes a model of a model of what is left. -/
  replays : ∃ records, after.records = engine.records.pushAll records ∧
    ∀ values model, after.CoreSatisfied values → Shows engine.numVars values model →
      ∃ restored table, Reconstruction.replayAll records.reverse model = some table ∧
        Shows engine.numVars restored table ∧ engine.CoreSatisfied restored ∧
        ∀ name, name ≠ pivot → restored name = values name
  /-- If the variable is gone, its value is of no account. -/
  free : after.trail.Removed pivot → ∀ values value, after.CoreSatisfied values →
    after.CoreSatisfied (Function.update values pivot value)
  unmentioned : after.trail.Removed pivot → ∀ clause ∈ after.arena.liveClauses,
    ∀ literal ∈ clause.literals, literal.var ≠ pivot

/-- Where records bring back what was said about a variable, nothing is lost on the
others. -/
theorem Quantifies.projects (quantifies : engine.Quantifies pivot after)
    (ready : engine.Ready) (inStep : after.InStep) (orderly : after.trail.Orderly)
    (gone : after.trail.Removed pivot →
      ∀ literals ∈ after.picture.formula, ∀ literal ∈ literals, literal.var ≠ pivot)
    (inStepBefore : engine.InStep) : engine.Projects pivot after := by
  have before : ∀ values, engine.CoreHolds values ↔ engine.CoreSatisfied values :=
    fun _ => holds_core_iff inStepBefore ready.facts
  have now : ∀ values, after.CoreHolds values ↔ after.CoreSatisfied values :=
    fun _ => holds_core_iff inStep (orderly.trans inStep.trail.rootLiterals.symm)
  obtain ⟨records, pushed, own, back⟩ := quantifies.back
  have keeps : ∀ values name, name ≠ pivot → unwind records values name = values name :=
    fun values name different => unwind_of_not_chosen fun record member =>
      (own record member).1 ▸ different.symm
  constructor
  case exists_iff =>
    refine fun values => ⟨?_, ?_⟩
    · rintro ⟨value, holds⟩
      have restored := back _ ((now _).2 holds)
      refine ⟨unwind records (Function.update values pivot value) pivot, (before _).1 ?_⟩
      convert restored using 1
      funext name
      by_cases same : name = pivot
      · rw [same, Function.update_self]
      · rw [keeps _ name same, Function.update_of_ne same, Function.update_of_ne same]
    · rintro ⟨value, holds⟩
      exact ⟨value, (now _).1 (quantifies.forth _ ((before _).2 holds))⟩
  case replays =>
    refine ⟨records, pushed, fun values model holds shows => ?_⟩
    obtain ⟨table, replayed, showsTable⟩ :=
      Reconstruction.replayAll_shows shows fun record member => (own record member).2
    exact ⟨_, table, replayed, showsTable, (before _).1 (back values ((now _).2 holds)), keeps values⟩
  case free =>
    intro removed values value holds
    refine (now _).1 fun literals inCore => ?_
    have apart := HoldsApart.of_unmentioned ((now _).2 holds literals inCore)
      (gone removed literals (core_subset_formula inCore))
    exact (apart.of_agree fun name different => Function.update_of_ne different _ _).clauseHolds
  case unmentioned =>
    exact fun removed clause live literal inside =>
      gone removed _ (.inl (Arena.literals_mem_contents live)) literal inside

end Engine

namespace Eliminator

/-- However an attempt to eliminate a removable variable ends, what is left says the same
about the other variables. It fails only if the formula had no model. -/
theorem projects_of_eliminate {tool : Tool Eliminator} {engine : Engine} {pivot : Nat}
    (ready : engine.Ready)
    (kept : ∀ clause ∈ engine.arena.liveClauses, ∀ literal ∈ clause.literals,
      ¬ engine.trail.Removed literal.var)
    (positive : 0 < pivot) (removable : engine.isRemovable? pivot = some true) :
    (eliminate pivot).Ends (tool, engine) (fun _ after => engine.Projects pivot after.2)
      fun cause _ => cause.isUnsat = true ∧ ∀ values, ¬ engine.CoreSatisfied values := by
  let _ : Realm := .rootLenient
  have sound : engine.Sound := ready.rootSound kept
  have works : WorksOn pivot (eliminate pivot) (tool, engine) _ :=
    worksOn_eliminate (Engine.removable_of_isRemovable? removable) positive .refl
  refine (works sound).imp ?_ ?_
  · rintro touched after ⟨⟨leads, quantifies⟩, _, gone⟩
    exact quantifies.projects ready leads.inStep (leads.orderly ready.orderly) gone sound.toInStep
  · rintro cause after ⟨fails, refuted⟩
    have isUnsat : cause.isUnsat = true := by
      rcases fails.reason with ⟨isUnsat, _⟩ | ⟨impossible, _⟩
      · exact isUnsat
      · exact impossible.elim
    refine ⟨isUnsat, fun values holds => refuted isUnsat values ?_⟩
    exact (Engine.holds_core_iff sound.toInStep ready.facts).2 holds

/-- A variable that is the conjunction of two others goes, and with it the gate. -/
theorem projects_of_eliminate_gate :
    ∃ (engine after : Engine) (tool toolAfter : Tool Eliminator) (touched : List Nat),
      engine.Ready ∧
      (∀ clause ∈ engine.arena.liveClauses, ∀ literal ∈ clause.literals,
        ¬ engine.trail.Removed literal.var) ∧
      0 < 1 ∧ engine.isRemovable? 1 = some true ∧
      eliminate 1 (tool, engine) = .done touched (toolAfter, after) ∧ touched ≠ [] ∧
      after.tally.gates = 1 ∧ engine.Projects 1 after := by
  obtain ⟨_, start, made, isOpen, removable, touched, ⟨toolAfter, after⟩, ended, changed, gate⟩ :
      (Simplifier.addClauses [[1, -2, -3], [-1, 2], [-1, 3], [1, 4, 5], [-1, 5, 6]]).Returns
        (.ofVars {} 6) fun _ start => start.engine.unsat = false ∧
          start.engine.isRemovable? 1 = some true ∧
          (eliminate 1).Returns ({ start.tools.elimination with budget.limit := 100 },
            start.engine) fun touched after => touched ≠ [] ∧ after.2.tally.gates = 1 := by
    decide +kernel
  obtain ⟨ready, kept⟩ := Simplifier.ready_of_ofClauses made (by decide) isOpen
  exact ⟨start.engine, after, _, toolAfter, touched, ready, kept,
    Nat.one_pos, removable, ended, changed, gate,
    (projects_of_eliminate ready kept Nat.one_pos removable).done_of_eq ended⟩

end Eliminator

end CnfSimplifier
