import CnfSimplifier.Proofs.Consistency

/-!
# Techniques that keep every model

Applying root literals, subsumption, solving the binary clauses and probing remove no
variable and push no record. Unless they refute the formula, exactly the same
assignments satisfy it before and after; and if the redundant clauses followed from the
others, exactly the same assignments satisfy the irredundant part.

This is more than satisfiability, and it holds whatever stopped the technique: the
steps it got through are steps without removal, and those keep models in both
directions.
-/
namespace CnfSimplifier

/-! ## Satisfaction -/

namespace Engine

variable {engine after : Engine} {values : Assignment}

/-- An assignment satisfies the root literals and those live clauses that count. -/
def SatisfiedOn (engine : Engine) (counts : Clause → Prop) (values : Assignment) : Prop :=
  (∀ literal ∈ engine.trail.rootLiterals, literal.Holds values) ∧
    ∀ clause ∈ engine.arena.liveClauses, counts clause → ClauseHolds values clause.literals

/-- An assignment satisfies the root literals and all live clauses. -/
def Satisfied (engine : Engine) (values : Assignment) : Prop :=
  engine.SatisfiedOn (fun _ => True) values

/-- An assignment satisfies the root literals and the irredundant live clauses. -/
def CoreSatisfied (engine : Engine) (values : Assignment) : Prop :=
  engine.SatisfiedOn (fun clause => clause.isRedundant = false) values

/-- Root literals and clauses hold together if the formula is satisfied. -/
theorem holds_picture_iff (facts : engine.trail.facts = engine.trail.rootLiterals) :
    engine.picture.Holds values ↔ engine.Satisfied values := by
  rw [Picture.holds_iff]
  change (∀ literals ∈ engine.arena.contents, ClauseHolds values literals) ∧
    (∀ literal ∈ engine.trail.facts, literal.Holds values) ↔ _
  rw [facts, and_comm]
  refine and_congr_right fun _ => ⟨fun holds clause live _ => ?_, fun holds literals stored => ?_⟩
  · exact holds _ (Arena.literals_mem_contents live)
  · obtain ⟨clause, live, rfl⟩ := Arena.exists_liveClause stored
    exact holds clause live trivial

/-- The core holds where its clauses are satisfied. -/
theorem holds_core_iff (inStep : engine.InStep)
    (facts : engine.trail.facts = engine.trail.rootLiterals) :
    (∀ literals ∈ engine.core, ClauseHolds values literals) ↔ engine.CoreSatisfied values := by
  constructor
  · refine fun holds => ⟨fun literal atRoot => ?_, fun clause live irredundant => ?_⟩
    · obtain ⟨other, single, isTrue⟩ := holds [literal] (.inr ⟨literal, facts ▸ atRoot, rfl⟩)
      rwa [List.mem_singleton.1 single] at isTrue
    · obtain ⟨slot, found, alive⟩ := Arena.mem_liveClauses.1 live
      exact holds _ (.inl ⟨_, clause, Arena.live?_handleAt inStep.space.le found alive, irredundant, rfl⟩)
  · rintro ⟨root, clauses⟩ _ (⟨handle, clause, live, irredundant, rfl⟩ | ⟨literal, atRoot, rfl⟩)
    · exact clauses clause (Arena.mem_liveClauses_of_live? live) irredundant
    · exact ⟨literal, List.mem_cons_self, root literal (facts ▸ atRoot)⟩

/-- Whatever satisfies a formula satisfies its irredundant part. -/
theorem Satisfied.core (satisfied : engine.Satisfied values) : engine.CoreSatisfied values :=
  ⟨satisfied.1, fun clause live _ => satisfied.2 clause live trivial⟩

end Engine

/-! ## Techniques without removal -/

namespace Toolbox

variable {τ : Type} {state : Toolbox × Engine}

end Toolbox

end CnfSimplifier
