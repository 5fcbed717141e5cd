import CnfSimplifier.SearchSolver
import CnfSimplifier.Proofs.Ending
import CnfSimplifier.Proofs.ExportedFormula

/-!
# What the small solver does in an exchange

The formula of the solver are its clauses and its root literals; a solver that has
refuted its formula holds under no assignment. Propagation adds root literals that
follow from the formula, and a conflict shows that the formula has no model. Taking
clauses away and adding them again are described exactly.
-/
namespace CnfSimplifier

variable {values : Assignment}

/-- Of a literal and its negation exactly one holds. -/
theorem satisfies_neg {literal : Int} (nonzero : literal ≠ 0) :
    Satisfies values [-literal] ↔ ¬ Satisfies values [literal] := by
  have sign : decide (0 < -literal) = !decide (0 < literal) := by
    by_cases positive : 0 < literal
    · rw [decide_eq_true positive, decide_eq_false (by omega)]
      rfl
    · rw [decide_eq_false positive, decide_eq_true (by omega)]
      rfl
  unfold Satisfies
  simp only [List.mem_singleton, exists_eq_left, Int.natAbs_neg, sign]
  cases values literal.natAbs <;> cases decide (0 < literal) <;> simp

theorem satisfies_of_mem {clause : List Int} {literal : Int} (member : literal ∈ clause)
    (holds : Satisfies values [literal]) : Satisfies values clause := by
  obtain ⟨_, single, isTrue⟩ := holds
  exact ⟨literal, member, List.mem_singleton.1 single ▸ isTrue⟩

/-- A clause is satisfied by one of its literals. -/
theorem satisfies_iff_exists {clause : List Int} :
    Satisfies values clause ↔ ∃ literal ∈ clause, Satisfies values [literal] := by
  constructor
  · rintro ⟨literal, member, isTrue⟩
    exact ⟨literal, member, literal, List.mem_cons_self, isTrue⟩
  · rintro ⟨literal, member, holds⟩
    exact satisfies_of_mem member holds

namespace SearchSolver

variable {solver middle after : SearchSolver}

/-- An assignment satisfies the clauses and the root literals of a solver that has not
refuted them. -/
structure Holds (values : Assignment) (solver : SearchSolver) : Prop where
  isOpen : solver.inconsistent = false
  clauses : ∀ clause ∈ solver.clauses, Satisfies values clause
  trail : ∀ literal ∈ solver.trail, Satisfies values [literal]

/-- The clauses consist of literals. -/
def Literals (clauses : List (List Int)) : Prop :=
  ∀ clause ∈ clauses, ∀ literal ∈ clause, literal ≠ 0

/-- No literal stands on the trail together with its negation. -/
def ConsistentTrail (trail : List Int) : Prop := ∀ literal ∈ trail, -literal ∉ trail

instance (trail : List Int) : Decidable (ConsistentTrail trail) :=
  inferInstanceAs (Decidable (∀ literal ∈ trail, _))

/-! ## Propagation -/

/-- The solver found literals of its clauses that follow from its formula. -/
structure Derives (solver after : SearchSolver) : Prop where
  numVars : after.numVars = solver.numVars
  clauses : after.clauses = solver.clauses
  phases : after.phases = solver.phases
  inconsistent : after.inconsistent = solver.inconsistent
  trail : solver.trail <+: after.trail
  found : ∀ literal ∈ after.trail, literal ∈ solver.trail ∨ literal ∈ solver.clauses.flatten
  consistent : ConsistentTrail solver.trail → ConsistentTrail after.trail
  holds : ∀ values, solver.Holds values → after.Holds values

namespace Derives

theorem refl : solver.Derives solver :=
  ⟨rfl, rfl, rfl, rfl, List.prefix_refl _, fun _ => .inl, id, fun _ => id⟩

theorem trans (first : solver.Derives middle) (second : middle.Derives after) :
    solver.Derives after where
  numVars := second.numVars.trans first.numVars
  clauses := second.clauses.trans first.clauses
  phases := second.phases.trans first.phases
  inconsistent := second.inconsistent.trans first.inconsistent
  trail := first.trail.trans second.trail
  found literal member := (second.found literal member).elim (first.found literal)
    fun inside => .inr (first.clauses ▸ inside)
  consistent consistent := second.consistent (first.consistent consistent)
  holds values holds := second.holds values (first.holds values holds)

/-- Nothing is lost by propagation. -/
theorem holds_iff (derives : solver.Derives after) (values : Assignment) :
    after.Holds values ↔ solver.Holds values := by
  refine ⟨fun holds => ⟨derives.inconsistent ▸ holds.isOpen, ?_, ?_⟩, derives.holds values⟩
  · exact derives.clauses ▸ holds.clauses
  · exact fun literal member => holds.trail literal (derives.trail.subset member)

end Derives

/-- The solver met a clause that is false under literals that follow. -/
structure Clashes (solver after : SearchSolver) : Prop where
  numVars : after.numVars = solver.numVars
  clauses : after.clauses = solver.clauses
  inconsistent : after.inconsistent = true
  trail : solver.trail <+: after.trail
  noModel : ∀ values, ¬ solver.Holds values

theorem Derives.clashes (derives : solver.Derives middle) (clashes : middle.Clashes after) :
    solver.Clashes after where
  numVars := clashes.numVars.trans derives.numVars
  clauses := clashes.clauses.trans derives.clauses
  inconsistent := clashes.inconsistent
  trail := derives.trail.trans clashes.trail
  noModel values holds := clashes.noModel values (derives.holds values holds)

/-- A literal is false whose negation stands on the trail. -/
theorem Holds.not_of_mem (holds : solver.Holds values) {literal : Int} (nonzero : literal ≠ 0)
    (isFalse : -literal ∈ solver.trail) : ¬ Satisfies values [literal] :=
  (satisfies_neg nonzero).1 (holds.trail _ isFalse)

/-- One pass: the literals found follow, and with an answer that something was found
there are some. -/
theorem propagatePass_ends {pending : List (List Int)} {found : Bool}
    (part : ∀ clause ∈ pending, clause ∈ solver.clauses) (nonzero : Literals solver.clauses) :
    (propagatePass pending found).Ends solver
      (fun _ after => solver.Derives after)
      fun cause after => cause = .inconsistent ∧ solver.Clashes after := by
  induction pending generalizing solver found with
  | nil => exact .pure .refl
  | cons clause rest ih =>
    obtain ⟨inside, partRest⟩ := List.forall_mem_cons.1 part
    unfold propagatePass
    refine .step rfl ?_
    dsimp only
    split
    · exact ih partRest nonzero
    next unsatisfied =>
    -- What is left of the clause is what is not false.
    have left : ∀ values, solver.Holds values → ∃ literal ∈
        clause.filter fun l => !solver.trail.contains (-l), Satisfies values [literal] := by
      intro values holds
      obtain ⟨literal, member, isTrue⟩ := satisfies_iff_exists.1 (holds.clauses clause inside)
      refine ⟨literal, List.mem_filter.2 ⟨member, ?_⟩, isTrue⟩
      have notFalse : -literal ∉ solver.trail := fun isFalse =>
        holds.not_of_mem (nonzero clause inside literal member) isFalse isTrue
      simpa using notFalse
    split
    next nothing =>
      refine .step rfl (.fail ⟨rfl, rfl, rfl, rfl, List.prefix_refl _, fun values holds => ?_⟩)
      obtain ⟨literal, member, _⟩ := left values holds
      rw [nothing] at member
      cases member
    next literal single =>
      have isLeft : literal ∈ clause.filter fun l => !solver.trail.contains (-l) :=
        single ▸ List.mem_cons_self
      obtain ⟨member, open_⟩ := List.mem_filter.1 isLeft
      have notFalse : -literal ∉ solver.trail := by simpa using open_
      have present := nonzero clause inside literal member
      let middle := { solver with trail := solver.trail ++ [literal] }
      have derives : solver.Derives middle := by
        refine ⟨rfl, rfl, rfl, rfl, List.prefix_append _ _, fun other isThere => ?_,
          fun consistent other isThere negated => ?_, fun values holds => ?_⟩
        · rcases List.mem_append.1 isThere with old | new
          · exact .inl old
          · rw [List.mem_singleton.1 new]
            exact .inr (List.mem_flatten.2 ⟨clause, inside, member⟩)
        · rcases List.mem_append.1 isThere with old | new
          · rcases List.mem_append.1 negated with oldNegated | newNegated
            · exact consistent other old oldNegated
            · rw [← List.mem_singleton.1 newNegated, Int.neg_neg] at notFalse
              exact notFalse old
          · rw [List.mem_singleton.1 new] at negated
            rcases List.mem_append.1 negated with oldNegated | newNegated
            · exact notFalse oldNegated
            · have same := List.mem_singleton.1 newNegated
              omega
        · refine ⟨holds.isOpen, holds.clauses, List.forall_mem_append.2 ⟨holds.trail, ?_⟩⟩
          obtain ⟨other, isOther, isTrue⟩ := left values holds
          rw [single, List.mem_singleton] at isOther
          exact List.forall_mem_singleton.2 (isOther ▸ isTrue)
      exact .step rfl ((@ih middle true partRest nonzero).imp
        (fun _ _ further => derives.trans further)
        fun _ _ ⟨isCause, clashes⟩ => ⟨isCause, derives.clashes clashes⟩)
    next => exact ih partRest nonzero

/-- Passes until one finds nothing. -/
theorem propagateLoop_ends {fuel : Nat} (nonzero : Literals solver.clauses) :
    (propagateLoop fuel).Ends solver (fun _ after => solver.Derives after)
      fun cause after => cause = .inconsistent ∧ solver.Clashes after := by
  induction fuel generalizing solver with
  | zero => exact .stop
  | succ fuel ih =>
    unfold propagateLoop
    refine .step rfl ((propagatePass_ends (fun _ member => member) nonzero).bind ?_)
    intro found middle derives
    split
    · exact (ih (derives.clauses ▸ nonzero)).imp (fun _ _ further => derives.trans further)
        fun _ _ ⟨isCause, clashes⟩ => ⟨isCause, derives.clashes clashes⟩
    · exact .pure derives

/-- Propagation finds literals that follow, or a conflict that no assignment avoids. -/
theorem propagate_ends (nonzero : Literals solver.clauses) :
    propagate.Ends solver (fun _ after => solver.Derives after)
      fun cause after => cause = .inconsistent ∧ solver.Clashes after := by
  unfold propagate
  exact .step rfl (propagateLoop_ends nonzero)

/-! ## Clauses in and out -/

/-- The solver has more clauses, and room for their literals. -/
structure Gains (solver : SearchSolver) (lists : List (List Int)) (after : SearchSolver) : Prop where
  clauses : after.clauses = solver.clauses ++ lists
  trail : after.trail = solver.trail
  phases : after.phases = solver.phases
  inconsistent : after.inconsistent = solver.inconsistent
  numVars : after.numVars = lists.flatten.foldl (fun room l => max room l.natAbs) solver.numVars

theorem foldl_grow (literals : List Int) (solver : SearchSolver) :
    literals.foldl grow solver = { solver with
      numVars := literals.foldl (fun room l => max room l.natAbs) solver.numVars } := by
  induction literals generalizing solver with
  | nil => rfl
  | cons literal rest ih => rw [List.foldl_cons, ih]; rfl

/-- A clause with a literal is always taken. -/
theorem addClause_of_nonempty {clause : List Int} (nonempty : clause ≠ []) :
    ∃ after, addClause clause solver = .done () after ∧ solver.Gains [clause] after := by
  have notEmpty : clause.isEmpty = false := by simpa using nonempty
  refine ⟨{ clause.foldl grow solver with
    clauses := (clause.foldl grow solver).clauses ++ [clause] }, ?_, ?_⟩
  · unfold addClause
    rw [notEmpty]
    rfl
  · rw [foldl_grow]
    exact ⟨rfl, rfl, rfl, rfl, by simp⟩

theorem Gains.trans {first second : List (List Int)} (gainsFirst : solver.Gains first middle)
    (gainsSecond : middle.Gains second after) :
    solver.Gains (first ++ second) after where
  clauses := by rw [gainsSecond.clauses, gainsFirst.clauses, List.append_assoc]
  trail := gainsSecond.trail.trans gainsFirst.trail
  phases := gainsSecond.phases.trans gainsFirst.phases
  inconsistent := gainsSecond.inconsistent.trans gainsFirst.inconsistent
  numVars := by
    rw [gainsSecond.numVars, gainsFirst.numVars, List.flatten_append, List.foldl_append]

/-- Clauses are given to the solver until one of them is empty. -/
theorem giveAll_ends (clauses : List (List Int)) :
    (Solver.giveAll clauses : Run SearchSolver Unit).Ends solver
      (fun _ after => solver.Gains clauses after)
      fun cause _ => cause = .emptyClause ∧ [] ∈ clauses := by
  induction clauses generalizing solver with
  | nil =>
    refine .pure ⟨?_, rfl, rfl, rfl, rfl⟩
    rw [List.append_nil]
  | cons clause rest ih =>
    unfold Solver.giveAll
    by_cases nonempty : clause = []
    · subst nonempty
      exact .of_failed rfl ⟨rfl, List.mem_cons_self⟩
    · obtain ⟨middle, added, gains⟩ := addClause_of_nonempty nonempty
      exact .step added (ih.imp (fun _ _ further => gains.trans further)
        fun _ _ ⟨isCause, member⟩ => ⟨isCause, List.mem_cons_of_mem _ member⟩)

/-! ## Exported clauses -/

/-- The solver has taken in exported clauses: units as root literals. -/
structure Receives (solver : SearchSolver) (lists : List (List Int)) (after : SearchSolver) :
    Prop where
  phases : after.phases = solver.phases
  numVars : after.numVars = lists.flatten.foldl (fun room l => max room l.natAbs) solver.numVars
  clauses : ∀ clause ∈ after.clauses, clause ∈ solver.clauses ∨ clause ∈ lists
  trail : ∀ literal ∈ after.trail, literal ∈ solver.trail ∨ [literal] ∈ lists
  consistent : Literals lists → ConsistentTrail solver.trail → ConsistentTrail after.trail
  holds : ∀ values, after.Holds values ↔
    solver.Holds values ∧ ∀ clause ∈ lists, Satisfies values clause

theorem Receives.trans {first second : List (List Int)}
    (receivesFirst : solver.Receives first middle) (receivesSecond : middle.Receives second after) :
    solver.Receives (first ++ second) after where
  phases := receivesSecond.phases.trans receivesFirst.phases
  numVars := by
    rw [receivesSecond.numVars, receivesFirst.numVars, List.flatten_append, List.foldl_append]
  clauses clause member := by
    rw [List.mem_append, ← or_assoc]
    exact (receivesSecond.clauses clause member).imp_left (receivesFirst.clauses clause)
  trail literal member := by
    rw [List.mem_append, ← or_assoc]
    exact (receivesSecond.trail literal member).imp_left (receivesFirst.trail literal)
  consistent literals consistent := by
    obtain ⟨ofFirst, ofSecond⟩ := List.forall_mem_append.1 literals
    exact receivesSecond.consistent ofSecond (receivesFirst.consistent ofFirst consistent)
  holds values := by
    rw [receivesSecond.holds, receivesFirst.holds, List.forall_mem_append, and_assoc]

/-- A solver receives a clause that it gains. -/
theorem Gains.receives {clause : List Int} (gains : solver.Gains [clause] after) :
    solver.Receives [clause] after where
  phases := gains.phases
  numVars := gains.numVars
  clauses other member := List.mem_append.1 (gains.clauses ▸ member)
  trail literal member := .inl (gains.trail ▸ member)
  consistent _ consistent := gains.trail ▸ consistent
  holds values := by
    constructor
    · intro holds
      obtain ⟨old, new⟩ := List.forall_mem_append.1 (gains.clauses ▸ holds.clauses)
      exact ⟨⟨gains.inconsistent ▸ holds.isOpen, old, gains.trail ▸ holds.trail⟩, new⟩
    · rintro ⟨holds, new⟩
      exact ⟨gains.inconsistent ▸ holds.isOpen,
        gains.clauses ▸ List.forall_mem_append.2 ⟨holds.clauses, new⟩, gains.trail ▸ holds.trail⟩

/-- A root literal is taken in, or it contradicts one that is there. -/
theorem assign_ends {literal : Int} (nonzero : literal ≠ 0) :
    (assign literal).Ends solver (fun _ after => solver.Receives [[literal]] after)
      fun cause after => cause.isUnsat = true ∧ after.inconsistent = true ∧
        ∀ values, solver.Holds values → ¬ Satisfies values [literal] := by
  unfold assign
  refine .step rfl (.step rfl ?_)
  dsimp only
  have trail : (solver.grow literal).trail = solver.trail := rfl
  split
  next contradicts =>
    have isFalse : -literal ∈ solver.trail := by
      rw [trail] at contradicts
      simpa using contradicts
    refine .step rfl (.fail ⟨rfl, rfl, fun values holds => holds.not_of_mem nonzero isFalse⟩)
  next agrees =>
    have notFalse : -literal ∉ solver.trail := by
      rw [trail] at agrees
      simpa using agrees
    split
    next known =>
      have isTrue : literal ∈ solver.trail := by
        rw [trail] at known
        simpa using known
      refine .pure ⟨rfl, rfl, fun _ => .inl, fun _ => .inl, fun _ => id, fun values => ?_⟩
      refine ⟨fun holds => ⟨⟨holds.isOpen, holds.clauses, holds.trail⟩, ?_⟩,
        fun ⟨holds, _⟩ => ⟨holds.isOpen, holds.clauses, holds.trail⟩⟩
      exact List.forall_mem_singleton.2 (holds.trail literal isTrue)
    next =>
      refine .of_done rfl ⟨rfl, rfl, fun _ => .inl, fun other member => ?_,
        fun _ consistent other member negated => ?_, fun values => ?_⟩
      · rcases List.mem_append.1 member with old | new
        · exact .inl old
        · rw [List.mem_singleton.1 new]
          exact .inr List.mem_cons_self
      · rcases List.mem_append.1 member with old | new
        · rcases List.mem_append.1 negated with oldNegated | newNegated
          · exact consistent other old oldNegated
          · rw [← List.mem_singleton.1 newNegated, Int.neg_neg] at notFalse
            exact notFalse old
        · rw [List.mem_singleton.1 new] at negated
          rcases List.mem_append.1 negated with oldNegated | newNegated
          · exact notFalse oldNegated
          · have same := List.mem_singleton.1 newNegated
            omega
      · constructor
        · intro holds
          obtain ⟨old, new⟩ := List.forall_mem_append.1 holds.trail
          exact ⟨⟨holds.isOpen, holds.clauses, old⟩,
            List.forall_mem_singleton.2 (new literal List.mem_cons_self)⟩
        · rintro ⟨holds, new⟩
          exact ⟨holds.isOpen, holds.clauses, List.forall_mem_append.2 ⟨holds.trail,
            List.forall_mem_singleton.2 (new _ List.mem_cons_self)⟩⟩

/-- Exported clauses are given to the solver until one of them contradicts it. -/
theorem giveExported_ends {lists : List (List Int)} (literals : Literals lists) :
    (Solver.giveExported lists : Run SearchSolver Unit).Ends solver
      (fun _ after => solver.Receives lists after)
      fun cause after => cause.isUnsat = true ∧ after.inconsistent = true ∧
        ∀ values, solver.Holds values → ¬ ∀ clause ∈ lists, Satisfies values clause := by
  induction lists generalizing solver with
  | nil =>
    exact .pure ⟨rfl, rfl, fun _ => .inl, fun _ => .inl, fun _ => id, fun values => by simp⟩
  | cons clause rest ih =>
    obtain ⟨first, others⟩ := List.forall_mem_cons.1 literals
    have onward : ∀ {middle : SearchSolver}, solver.Receives [clause] middle →
        (Solver.giveExported rest : Run SearchSolver Unit).Ends middle
          (fun _ after => solver.Receives (clause :: rest) after)
          fun cause after => cause.isUnsat = true ∧ after.inconsistent = true ∧
            ∀ values, solver.Holds values →
              ¬ ∀ list ∈ clause :: rest, Satisfies values list := by
      intro middle receives
      refine (ih others).imp (fun _ _ further => receives.trans further) ?_
      rintro cause after ⟨isUnsat, inconsistent, noModel⟩
      refine ⟨isUnsat, inconsistent, fun values holds all => ?_⟩
      obtain ⟨now, later⟩ := List.forall_mem_cons.1 all
      exact noModel values ((receives.holds values).2
        ⟨holds, List.forall_mem_singleton.2 now⟩) later
    unfold Solver.giveExported
    split
    next literal =>
      refine ((assign_ends (first literal List.mem_cons_self)).imp (fun _ _ held => held) ?_).bind
        fun _ middle receives => onward receives
      rintro cause after ⟨isUnsat, inconsistent, isFalse⟩
      exact ⟨isUnsat, inconsistent, fun values holds all =>
        isFalse values holds (all _ List.mem_cons_self)⟩
    next =>
      by_cases nonempty : clause = []
      · subst nonempty
        refine .of_failed rfl ⟨rfl, rfl, fun values holds all => ?_⟩
        obtain ⟨_, member, _⟩ := all [] List.mem_cons_self
        cases member
      · obtain ⟨middle, added, gains⟩ := addClause_of_nonempty nonempty
        exact .step added (onward gains.receives)

/-- Suggestions are noted. -/
theorem suggestAll_eq (literals : List Int) (solver : SearchSolver) :
    (Solver.suggestAll literals : Run SearchSolver Unit) solver =
      .done () { solver with phases := solver.phases ++ literals } := by
  induction literals generalizing solver with
  | nil =>
    unfold Solver.suggestAll
    rw [List.append_nil]
    rfl
  | cons literal rest ih =>
    unfold Solver.suggestAll
    refine (Run.bind_of_done rfl).trans ((ih _).trans ?_)
    simp

end SearchSolver

end CnfSimplifier
