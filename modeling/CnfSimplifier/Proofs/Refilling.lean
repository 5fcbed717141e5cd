import CnfSimplifier.Proofs.Emptying

/-!
# Taking clauses in unchanged

A clause that has the form of a stored one, and none of whose literals has a value, is
stored as it is, behind the clauses that are there. A unit that is true already changes
nothing. So a list of such units and clauses fills an empty arena with exactly these
clauses, in their order.
-/
namespace CnfSimplifier

namespace Trail

variable {trail : Trail} {literals : List Literal}

/-- No clause is satisfied by open literals. -/
theorem satisfies?_of_open
    (isOpen : ∀ literal ∈ literals, trail.literalValue? literal = some none) :
    trail.satisfies? literals = some false := by
  induction literals with
  | nil => rfl
  | cons literal rest ih =>
    obtain ⟨first, others⟩ := List.forall_mem_cons.1 isOpen
    rw [satisfies?, first, ih others]
    rfl

/-- Of open literals all are left. -/
theorem openLiterals?_of_open
    (isOpen : ∀ literal ∈ literals, trail.literalValue? literal = some none) :
    Engine.openLiterals? trail literals = some literals := by
  induction literals with
  | nil => rfl
  | cons literal rest ih =>
    obtain ⟨first, others⟩ := List.forall_mem_cons.1 isOpen
    rw [Engine.openLiterals?, first, ih others]
    rfl

end Trail

/-- A clause that is stored as it is: it has the form of a clause, and its variables are
there and open. -/
structure Trail.Welcomes (trail : Trail) (literals : List Literal) : Prop where
  sorted : literals.Pairwise (· < ·)
  two : 2 ≤ literals.length
  proper : ∀ literal ∈ literals, literal.complement ∉ literals
  inRange : ∀ literal ∈ literals, 0 < literal.var ∧ literal.var ≤ trail.numVars
  isOpen : ∀ literal ∈ literals, trail.literalValue? literal = some none

namespace Engine

variable {engine : Engine} {literals : List Literal}

/-- Clauses over variables that are there are not refused. -/
theorem any_outside_eq_false
    (inRange : ∀ literal ∈ literals, 0 < literal.var ∧ literal.var ≤ engine.numVars) :
    (literals.any fun l => engine.numVars < l.var || l.var == 0) = false := by
  rw [List.any_eq_false]
  intro literal member
  obtain ⟨positive, small⟩ := inRange literal member
  simp only [Bool.or_eq_true, decide_eq_true_eq, beq_iff_eq]
  omega

/-- A unit that is true already changes nothing. -/
theorem importClause_unit {literal : Literal} (positive : 0 < literal.var)
    (small : literal.var ≤ engine.numVars)
    (value : engine.trail.literalValue? literal = some (some true)) :
    importClause [literal] false engine = .done none engine := by
  have outside : ([literal].any fun l => engine.numVars < l.var || l.var == 0) = false :=
    any_outside_eq_false (by simpa using ⟨positive, small⟩)
  have sorted : sortedLiterals [literal] = [literal] :=
    sortedLiterals_of_pairwise (List.pairwise_singleton _ _)
  have satisfied : engine.trail.satisfies? [literal] = some true := by
    rw [Trail.satisfies?, value]
    rfl
  unfold importClause storeClause
  rw [Run.bind_of_done (Run.get_apply engine)]
  simp only [outside, sorted, satisfied, hasComplements, Bool.false_eq_true, if_false]
  rfl

/-- The engine after clauses were put behind the others as they are. -/
structure Appends (engine : Engine) (clauses : List (List Literal)) (after : Engine) : Prop where
  inStep : after.InStep
  trail : after.trail = engine.trail
  records : after.records = engine.records
  slots : after.arena.slots.toList =
    engine.arena.slots.toList ++ clauses.map fun clause => Clause.ofLiterals clause false

/-- Storing what is left of a clause, if it is ascending and there is room. -/
theorem insertClause_returns (inStep : engine.InStep)
    (sorted : literals.Pairwise (· < ·)) (inRange : ∀ literal ∈ literals, literal.var ≤ engine.numVars)
    (space : engine.arena.slots.size + 1 < UInt32.size) :
    (do
      let handle ← insertClause literals false
      let stored ← clause handle
      updateIndex fun index => index.add handle stored.literals
      touch
      return some handle).Returns engine fun _ after => engine.Appends [literals] after := by
  have inside : ∀ literal ∈ literals, literal.var < engine.trail.vars.size := by
    intro literal member
    have small := inRange literal member
    have nonempty := inStep.trail.nonempty
    unfold numVars Trail.numVars at small
    omega
  refine (safe_insertClause inStep.roomy inside (.inl space) fun _ _ => .step rfl .pure).returns ?_ fun _ _ => id
  refine insertClause_seq inStep sorted fun after inserts => .step rfl (.pure ?_)
  exact ⟨inserts.inStep.of_same rfl rfl rfl rfl, inserts.trail, inserts.records,
    by simp [inserts.slots]⟩

/-- A clause that is welcome is put behind the others as it is. -/
theorem importClause_returns (inStep : engine.InStep) (welcome : engine.trail.Welcomes literals)
    (space : engine.arena.slots.size + 1 < UInt32.size) :
    (importClause literals false).Returns engine fun _ after => engine.Appends [literals] after := by
  have plain : hasComplements literals = false := by
    rw [← Bool.not_eq_true]
    intro found
    obtain ⟨literal, member, complement⟩ := exists_complement_of_hasComplements found
    exact welcome.proper literal member complement
  have stored := insertClause_returns inStep welcome.sorted
    (fun literal member => (welcome.inRange literal member).2) space
  have outside := @any_outside_eq_false engine literals welcome.inRange
  unfold importClause storeClause
  refine .step (Run.get_apply engine) ?_
  simp only [outside, sortedLiterals_of_pairwise welcome.sorted, plain, Bool.false_eq_true, if_false,
    Trail.satisfies?_of_open welcome.isOpen, Trail.openLiterals?_of_open welcome.isOpen]
  rcases literals with _ | ⟨first, _ | ⟨second, rest⟩⟩
  · exact absurd welcome.two (by simp)
  · exact absurd welcome.two (by simp)
  refine .step (Run.access_some false engine) ?_
  rw [if_neg Bool.false_ne_true]
  refine .step (Run.access_some _ engine) ?_
  dsimp only
  rw [if_neg (by simp)]
  exact stored

end Engine

namespace Solver

variable {engine : Engine}

/-- Units that are true already change nothing. -/
theorem storeAll_units {units : List Literal} (clauses : List (List Literal))
    (known : ∀ literal ∈ units, 0 < literal.var ∧ literal.var ≤ engine.numVars ∧
      engine.trail.literalValue? literal = some (some true)) :
    storeAll (units.map (fun unit => [unit]) ++ clauses) engine = storeAll clauses engine := by
  induction units with
  | nil => rfl
  | cons literal rest ih =>
    obtain ⟨⟨positive, small, value⟩, others⟩ := List.forall_mem_cons.1 known
    exact (Run.bind_of_done (Engine.importClause_unit positive small value)).trans (ih others)

/-- Clauses that are welcome are put behind the others, in their order. -/
theorem storeAll_returns {clauses : List (List Literal)} (inStep : engine.InStep)
    (welcome : ∀ clause ∈ clauses, engine.trail.Welcomes clause)
    (space : engine.arena.slots.size + clauses.length < UInt32.size) :
    (storeAll clauses).Returns engine fun _ after => engine.Appends clauses after := by
  induction clauses generalizing engine with
  | nil => exact .pure ⟨inStep, rfl, rfl, by simp⟩
  | cons clause rest ih =>
    obtain ⟨first, others⟩ := List.forall_mem_cons.1 welcome
    rw [List.length_cons] at space
    refine (Engine.importClause_returns inStep first (by omega)).bind fun _ middle appends => ?_
    have size : middle.arena.slots.size = engine.arena.slots.size + 1 := by
      rw [← Array.length_toList, appends.slots]
      simp
    refine (ih appends.inStep (appends.trail ▸ others) (by omega)).imp fun _ after further => ?_
    exact ⟨further.inStep, further.trail.trans appends.trail,
      further.records.trans appends.records, by simp [further.slots, appends.slots]⟩

end Solver

/-- The live clauses of an arena that was filled with ascending clauses. -/
theorem Arena.liveClauses_of_slots {arena : Arena} {clauses : List (List Literal)}
    (slots : arena.slots.toList = clauses.map fun clause => Clause.ofLiterals clause false)
    (sorted : ∀ clause ∈ clauses, clause.Pairwise (· < ·)) :
    arena.liveClauses.map Clause.literals = clauses := by
  have alive : arena.liveClauses = arena.slots.toList := by
    refine List.filter_eq_self.2 fun clause member => ?_
    rw [slots] at member
    obtain ⟨_, _, rfl⟩ := List.mem_map.1 member
    rfl
  rw [alive, slots, List.map_map]
  exact (List.map_congr_left fun clause member => sortedLiterals_of_pairwise (sorted clause member)).trans
    (List.map_id clauses)

end CnfSimplifier
