import CnfSimplifier.Satisfaction
import Mathlib.Data.Set.Basic

/-!
# Unit propagation

What follows from a set of clauses and some assumed literals by unit propagation
alone: an assumed literal, and the last literal of a clause whose other literals
are all false. A clause all of whose literals are false is a conflict. A clause
is redundant by reverse unit propagation if the complements of its literals lead
to a conflict.

Nothing here says in which order clauses are looked at. A procedure that
propagates derives such literals, in whatever order it works.
-/
namespace CnfSimplifier

/-- A literal that unit propagation derives from clauses and assumed literals. -/
inductive Propagates (clauses : Set (List Literal)) (assumed : Set Literal) : Literal → Prop
  | assumption {literal : Literal} (member : literal ∈ assumed) :
    Propagates clauses assumed literal
  | unit {literals : List Literal} {literal : Literal} (clause : literals ∈ clauses)
    (member : literal ∈ literals)
    (others : ∀ other ∈ literals, other ≠ literal →
      Propagates clauses assumed other.complement) :
    Propagates clauses assumed literal

/-- Unit propagation makes every literal of some clause false. -/
def Conflicts (clauses : Set (List Literal)) (assumed : Set Literal) : Prop :=
  ∃ literals ∈ clauses, ∀ literal ∈ literals, Propagates clauses assumed literal.complement

/-- The complements of the literals of a clause. -/
def negations (literals : List Literal) : Set Literal :=
  {literal | ∃ member ∈ literals, literal = member.complement}

/-- A clause whose negation leads to a conflict by unit propagation. -/
def Rup (clauses : Set (List Literal)) (literals : List Literal) : Prop :=
  Conflicts clauses (negations literals)

/-- The literals of a clause belong to variables. -/
def OverVars (literals : List Literal) : Prop := ∀ literal ∈ literals, 0 < literal.var

/-- Every clause contains one of the second formula. -/
def Covers (second first : Set (List Literal)) : Prop :=
  ∀ literals ∈ first, ∃ part ∈ second, part ⊆ literals

variable {clauses others : Set (List Literal)} {assumed more : Set Literal}
  {literals : List Literal} {literal : Literal} {values : Assignment}

theorem mem_negations (member : literal ∈ literals) :
    literal.complement ∈ negations literals := ⟨literal, member, rfl⟩

@[simp] theorem negations_nil : negations [] = ∅ := by
  ext literal
  simp [negations]

/-- A formula covers the formulas that are part of it. -/
theorem Covers.of_subset (part : clauses ⊆ others) : Covers others clauses :=
  fun literals member => ⟨literals, part member, List.Subset.refl _⟩

theorem Covers.trans {last : Set (List Literal)} (second : Covers last others)
    (first : Covers others clauses) : Covers last clauses := by
  intro literals member
  obtain ⟨middle, inMiddle, small⟩ := first literals member
  obtain ⟨part, inLast, smaller⟩ := second middle inMiddle
  exact ⟨part, inLast, fun literal inside => small (smaller inside)⟩

/-! ## Soundness -/

/-- What propagation derives holds wherever the clauses and the assumptions do. -/
theorem Propagates.holds (proper : ∀ literals ∈ clauses, OverVars literals)
    (satisfied : ∀ literals ∈ clauses, ClauseHolds values literals)
    (granted : ∀ literal ∈ assumed, literal.Holds values)
    (derived : Propagates clauses assumed literal) : literal.Holds values := by
  induction derived with
  | assumption member => exact granted _ member
  | @unit literals literal clause member _ falsified =>
    obtain ⟨witness, inClause, holds⟩ := satisfied literals clause
    by_cases same : witness = literal
    · exact same ▸ holds
    · have fails := falsified witness inClause same
      rw [Literal.holds_complement (proper literals clause witness inClause)] at fails
      exact absurd holds fails

/-- Clauses and assumptions that lead to a conflict have no common model. -/
theorem Conflicts.not_holds (proper : ∀ literals ∈ clauses, OverVars literals)
    (satisfied : ∀ literals ∈ clauses, ClauseHolds values literals)
    (conflict : Conflicts clauses assumed) : ∃ literal ∈ assumed, ¬ literal.Holds values := by
  by_contra granted
  push Not at granted
  obtain ⟨literals, clause, falsified⟩ := conflict
  obtain ⟨literal, member, holds⟩ := satisfied literals clause
  have fails := (falsified literal member).holds proper satisfied granted
  rw [Literal.holds_complement (proper literals clause literal member)] at fails
  exact fails holds

/-- A clause that is redundant by reverse unit propagation follows. -/
theorem Rup.clauseHolds (proper : ∀ literals ∈ clauses, OverVars literals)
    (satisfied : ∀ literals ∈ clauses, ClauseHolds values literals) (present : OverVars literals)
    (redundant : Rup clauses literals) : ClauseHolds values literals := by
  obtain ⟨_, ⟨literal, member, rfl⟩, fails⟩ :=
    Conflicts.not_holds proper satisfied redundant
  rw [Literal.holds_complement (present literal member), not_not] at fails
  exact ⟨literal, member, fails⟩

/-! ## Monotony -/

/-- More clauses and assumptions derive more. -/
theorem Propagates.mono (derived : Propagates clauses assumed literal) (part : clauses ⊆ others)
    (fewer : assumed ⊆ more) : Propagates others more literal := by
  induction derived with
  | assumption member => exact .assumption (fewer member)
  | unit clause member _ falsified => exact .unit (part clause) member falsified

theorem Conflicts.mono (conflict : Conflicts clauses assumed)
    (part : clauses ⊆ others) (fewer : assumed ⊆ more) : Conflicts others more := by
  obtain ⟨literals, clause, falsified⟩ := conflict
  exact ⟨literals, part clause, fun literal member => (falsified literal member).mono part fewer⟩

theorem Rup.mono (redundant : Rup clauses literals) (part : clauses ⊆ others) :
    Rup others literals :=
  Conflicts.mono redundant part Set.Subset.rfl

/-- More literals are easier to derive. -/
theorem Rup.weaken {part literals : List Literal} (redundant : Rup clauses part)
    (small : part ⊆ literals) : Rup clauses literals := by
  refine Conflicts.mono redundant Set.Subset.rfl ?_
  rintro _ ⟨literal, member, rfl⟩
  exact mem_negations (small member)

/-- Smaller clauses derive a literal as well, unless they are in conflict. -/
theorem Propagates.of_covers (covers : Covers others clauses)
    (derived : Propagates clauses assumed literal) :
    Propagates others assumed literal ∨ Conflicts others assumed := by
  by_cases conflict : Conflicts others assumed
  · exact .inr conflict
  left
  induction derived with
  | assumption member => exact .assumption member
  | @unit literals literal clause member _ falsified =>
    obtain ⟨part, inOthers, small⟩ := covers literals clause
    -- Without the literal itself the smaller clause would be a conflict.
    have inPart : literal ∈ part := by
      by_contra absent
      apply conflict
      refine ⟨part, inOthers, fun other inside => falsified other (small inside) ?_⟩
      intro same
      exact absent (same ▸ inside)
    exact .unit inOthers inPart fun other inside different =>
      falsified other (small inside) different

/-- A conflict is one of all clauses that cover these. -/
theorem Conflicts.of_covers (covers : Covers others clauses)
    (conflict : Conflicts clauses assumed) : Conflicts others assumed := by
  by_contra consistent
  obtain ⟨literals, clause, falsified⟩ := conflict
  obtain ⟨part, inOthers, small⟩ := covers literals clause
  refine consistent ⟨part, inOthers, fun literal member => ?_⟩
  rcases (falsified literal (small member)).of_covers covers with derived | conflict
  · exact derived
  · exact absurd conflict consistent

theorem Rup.of_covers (covers : Covers others clauses) (redundant : Rup clauses literals) :
    Rup others literals :=
  Conflicts.of_covers covers redundant

/-- A derived literal may be assumed. -/
theorem Propagates.cut (known : ∀ literal ∈ more, Propagates clauses assumed literal)
    (derived : Propagates clauses more literal) : Propagates clauses assumed literal := by
  induction derived with
  | assumption member => exact known _ member
  | unit clause member _ falsified => exact .unit clause member falsified

theorem Conflicts.cut (known : ∀ literal ∈ more, Propagates clauses assumed literal)
    (conflict : Conflicts clauses more) : Conflicts clauses assumed := by
  obtain ⟨literals, clause, falsified⟩ := conflict
  exact ⟨literals, clause, fun literal member => (falsified literal member).cut known⟩

/-! ## Conflicts -/

/-- A literal that was derived and not assumed comes from a clause; if it is false
as well, that clause is a conflict. -/
theorem Propagates.conflicts (derived : Propagates clauses assumed literal)
    (fresh : literal ∉ assumed) (falsified : Propagates clauses assumed literal.complement) :
    Conflicts clauses assumed := by
  cases derived with
  | assumption member => exact absurd member fresh
  | @unit literals _ clause member rest =>
    refine ⟨literals, clause, fun other inside => ?_⟩
    by_cases same : other = literal
    · exact same ▸ falsified
    · exact rest other inside same

/-- A formula that derives the empty clause has no model. -/
theorem Rup.not_satisfiable (proper : ∀ literals ∈ clauses, OverVars literals)
    (refuted : Rup clauses []) : ¬ ∀ literals ∈ clauses, ClauseHolds values literals := by
  intro satisfied
  obtain ⟨literal, member, _⟩ :=
    refuted.clauseHolds proper satisfied (fun _ none => absurd none List.not_mem_nil)
  exact absurd member List.not_mem_nil

end CnfSimplifier
