import CnfSimplifier.Proofs.Dealings

/-!
# What an exchange does to a formula

An exchange ends in one of three ways. The formula is refuted; or it is not taken
over, and the solver has it again; or it is simplified, and the solver gets what the
simplifier exports.

In the last case the solver still has the root literals that it had before. They are
those of the old numbering while the exported clauses are those of the new one. What
the solver holds afterwards is worth the same as what it held before if every variable
of these root literals has itself for its number.
-/
namespace CnfSimplifier

namespace SearchSolver

open Simplifier

variable {solver middle after : SearchSolver}

/-- The literals of a solver are over its variables, and these have ordinary literals. -/
structure Proper (solver : SearchSolver) : Prop where
  clauses : ∀ clause ∈ solver.clauses, ∀ literal ∈ clause,
    literal ≠ 0 ∧ literal.natAbs ≤ solver.numVars
  trail : ∀ literal ∈ solver.trail, literal ≠ 0 ∧ literal.natAbs ≤ solver.numVars
  numVars : solver.numVars ≤ Literal.maxVar

theorem Proper.literals (proper : solver.Proper) : Literals solver.clauses :=
  fun clause member literal inside => (proper.clauses clause member literal inside).1

/-- What a proper solver hands over is in range. -/
theorem Proper.handed_inRange (proper : solver.Proper) :
    InRange (Solver.handed solver solver.clauses) := by
  refine List.forall_mem_append.2 ⟨fun clause member literal inside => ?_,
    fun clause member literal inside => ?_⟩
  · obtain ⟨root, atRoot, rfl⟩ := List.mem_map.1 member
    obtain rfl := List.mem_singleton.1 inside
    obtain ⟨nonzero, small⟩ := proper.trail literal atRoot
    exact ⟨nonzero, small.trans proper.numVars⟩
  · obtain ⟨nonzero, small⟩ := proper.clauses clause member literal inside
    exact ⟨nonzero, small.trans proper.numVars⟩

/-- A solver that has not refuted its formula holds what it hands over. -/
theorem Proper.holds_iff (proper : solver.Proper) (isOpen : solver.inconsistent = false)
    {values : Assignment} : solver.Holds values ↔
      ∀ list ∈ Solver.handed solver solver.clauses, ClauseHolds values (list.map Literal.ofInt) := by
  have satisfies : ∀ list ∈ Solver.handed solver solver.clauses,
      (Satisfies values list ↔ ClauseHolds values (list.map Literal.ofInt)) :=
    fun list member => proper.handed_inRange.satisfies_iff member
  constructor
  · intro holds list member
    refine (satisfies list member).1 ?_
    rcases List.mem_append.1 member with unit | clause
    · obtain ⟨literal, atRoot, rfl⟩ := List.mem_map.1 unit
      exact holds.trail literal atRoot
    · exact holds.clauses list clause
  · intro all
    have each : ∀ list ∈ Solver.handed solver solver.clauses, Satisfies values list :=
      fun list member => (satisfies list member).2 (all list member)
    exact ⟨isOpen, fun clause member => each clause (List.mem_append_right _ member),
      fun literal atRoot => each [literal] (List.mem_append_left _ (List.mem_map_of_mem atRoot))⟩

/-- Derived clauses leave a solver proper. -/
theorem Derives.proper (derives : solver.Derives after) (proper : solver.Proper) : after.Proper where
  clauses := by
    rw [derives.clauses, derives.numVars]
    exact proper.clauses
  trail literal member := by
    rw [derives.numVars]
    rcases derives.found literal member with atRoot | inClauses
    · exact proper.trail literal atRoot
    · obtain ⟨clause, isClause, inside⟩ := List.mem_flatten.1 inClauses
      exact proper.clauses clause isClause literal inside
  numVars := derives.numVars ▸ proper.numVars

theorem Proper.withoutClauses (proper : solver.Proper) :
    ({ solver with clauses := [] } : SearchSolver).Proper where
  clauses := by simp
  trail := proper.trail
  numVars := proper.numVars

/-! ## Before -/

/-- The solver is asked whether its formula is refuted, and propagates meanwhile. -/
theorem isRefuted_ends {before : Simplifier} (proper : solver.Proper)
    {failed : Error → SearchSolver × Simplifier → Prop} :
    (Solver.isRefuted SearchSolver).Ends (solver, before) (fun isRefuted after =>
      after.2 = before ∧
      (isRefuted = true ∧ after.1.inconsistent = true ∧ (∀ values, ¬ solver.Holds values) ∨
        isRefuted = false ∧ after.1.inconsistent = false ∧
          propagate solver = .done () after.1 ∧ solver.Derives after.1)) failed := by
  unfold Solver.isRefuted
  refine .step rfl ?_
  dsimp only
  split
  next consistent =>
    have isOpen : solver.inconsistent = false := by simpa [Solver.isConsistent] using consistent
    have ends := propagate_ends proper.literals
    refine .seq (.attempt (.onFirst ?_))
    cases propagated : propagate solver with
    | done _ after =>
      have derives := ends.done_of_eq propagated
      exact .of_done propagated (.pure ⟨rfl, .inr ⟨rfl, derives.inconsistent.trans isOpen, rfl,
        derives⟩⟩)
    | failed cause after =>
      obtain ⟨_, clashes⟩ := ends.failed_of_eq propagated
      exact .of_failed propagated (.pure ⟨rfl, .inl ⟨rfl, clashes.inconsistent, clashes.noModel⟩⟩)
    | stuck why => exact .of_stuck propagated
  next inconsistent =>
    have closed : solver.inconsistent = true := by simpa [Solver.isConsistent] using inconsistent
    refine .pure ⟨rfl, .inl ⟨rfl, closed, fun values holds => ?_⟩⟩
    rw [holds.isOpen] at closed
    cases closed

/-! ## After -/

/-- The solver holds some more clauses, or has found out that it cannot. -/
structure TakesBack (solver : SearchSolver) (lists : List (List Int)) (after : SearchSolver) :
    Prop where
  proper : after.inconsistent = false → after.Proper
  numVars : after.inconsistent = false → solver.numVars ≤ after.numVars
  holds : ∀ values, after.Holds values ↔
    solver.Holds values ∧ ∀ clause ∈ lists, Satisfies values clause

/-- A solver that cannot hold the clauses has refuted its formula. -/
theorem TakesBack.of_refuted {lists : List (List Int)} (closed : after.inconsistent = true)
    (noModel : ∀ values, solver.Holds values → ¬ ∀ clause ∈ lists, Satisfies values clause) :
    solver.TakesBack lists after where
  proper isOpen := absurd (closed.symm.trans isOpen) (by decide)
  numVars isOpen := absurd (closed.symm.trans isOpen) (by decide)
  holds values := by
    refine ⟨fun holds => ?_, fun ⟨holds, all⟩ => absurd all (noModel values holds)⟩
    rw [holds.isOpen] at closed
    cases closed

/-- A running maximum is above all that it has seen. -/
theorem le_foldl_max (literals : List Int) (room : Nat) :
    room ≤ literals.foldl (fun room l => max room l.natAbs) room ∧
      ∀ literal ∈ literals, literal.natAbs ≤ literals.foldl (fun room l => max room l.natAbs) room := by
  induction literals generalizing room with
  | nil => exact ⟨Nat.le_refl room, by simp⟩
  | cons literal rest ih =>
    obtain ⟨roomy, others⟩ := ih (max room literal.natAbs)
    exact ⟨(Nat.le_max_left _ _).trans roomy,
      List.forall_mem_cons.2 ⟨(Nat.le_max_right _ _).trans roomy, others⟩⟩

/-- A running maximum is below what is above all it sees. -/
theorem foldl_max_le {literals : List Int} {room bound : Nat} (small : room ≤ bound)
    (all : ∀ literal ∈ literals, literal.natAbs ≤ bound) :
    literals.foldl (fun room l => max room l.natAbs) room ≤ bound := by
  induction literals generalizing room with
  | nil => exact small
  | cons literal rest ih =>
    obtain ⟨first, others⟩ := List.forall_mem_cons.1 all
    exact ih (Nat.max_le.2 ⟨small, first⟩) others

/-- Clauses in range leave a solver proper. -/
theorem Receives.proper {lists : List (List Int)} (receives : solver.Receives lists after)
    (proper : solver.Proper) (inRange : InRange lists) : after.Proper := by
  obtain ⟨roomy, all⟩ := le_foldl_max lists.flatten solver.numVars
  rw [← receives.numVars] at roomy all
  have fits : ∀ clause ∈ lists, ∀ literal ∈ clause, literal ≠ 0 ∧ literal.natAbs ≤ after.numVars :=
    fun clause member literal inside => ⟨(inRange clause member literal inside).1,
      all literal (List.mem_flatten_of_mem member inside)⟩
  refine ⟨fun clause member literal inside => ?_, fun literal member => ?_, ?_⟩
  · rcases receives.clauses clause member with old | new
    · obtain ⟨nonzero, small⟩ := proper.clauses clause old literal inside
      exact ⟨nonzero, small.trans roomy⟩
    · exact fits clause new literal inside
  · rcases receives.trail literal member with old | new
    · obtain ⟨nonzero, small⟩ := proper.trail literal old
      exact ⟨nonzero, small.trans roomy⟩
    · exact fits [literal] new literal List.mem_cons_self
  · rw [receives.numVars]
    refine foldl_max_le proper.numVars fun literal member => ?_
    obtain ⟨clause, isClause, inside⟩ := List.mem_flatten.1 member
    exact (inRange clause isClause literal inside).2

/-- Exported clauses in range are handed back. -/
theorem handBack_ends {sent : Simplifier} (proper : solver.Proper)
    (inRange : InRange sent.exportedClauses) :
    (Solver.handBack SearchSolver).Ends (solver, sent)
      (fun _ after => after.2 = sent ∧ solver.TakesBack sent.exportedClauses after.1)
      fun cause after => cause.isUnsat = true ∧ after.2 = sent ∧ after.1.inconsistent = true ∧
        solver.TakesBack sent.exportedClauses after.1 := by
  have literals : Literals sent.exportedClauses := fun clause member literal inside =>
    (inRange clause member literal inside).1
  unfold Solver.handBack
  refine .step rfl (.seq (.onFirst ((giveExported_ends literals).imp ?_ ?_)))
  · intro _ given receives
    have properGiven := receives.proper proper inRange
    refine .seq (.onFirst ((propagate_ends properGiven.literals).imp ?_ ?_))
    · intro _ propagated derives
      refine .onFirst (.of_done (suggestAll_eq _ propagated) ⟨rfl, fun _ => ?_, fun _ => ?_,
        fun values => ?_⟩)
      · obtain ⟨clauses, trail, numVars⟩ := derives.proper properGiven
        exact ⟨clauses, trail, numVars⟩
      · change solver.numVars ≤ propagated.numVars
        rw [derives.numVars, receives.numVars]
        exact (le_foldl_max _ _).1
      · rw [← receives.holds values, ← derives.holds_iff values]
        exact ⟨fun holds => ⟨holds.isOpen, holds.clauses, holds.trail⟩,
          fun holds => ⟨holds.isOpen, holds.clauses, holds.trail⟩⟩
    · rintro cause propagated ⟨rfl, clashes⟩
      exact ⟨rfl, rfl, clashes.inconsistent, .of_refuted clashes.inconsistent fun values holds all =>
        clashes.noModel values ((receives.holds values).2 ⟨holds, all⟩)⟩
  · rintro cause given ⟨isUnsat, closed, noModel⟩
    exact ⟨isUnsat, rfl, closed, .of_refuted closed noModel⟩

/-- A refuted formula is handed back as the empty clause. -/
theorem handBack_of_closed {sent : Simplifier} (closed : sent.engine.unsat = true) :
    Solver.handBack SearchSolver (solver, sent) =
      .failed .emptyClause ({ solver with inconsistent := true }, sent) := by
  unfold Solver.handBack
  rw [Run.bind_of_done (Run.get_apply _)]
  dsimp only
  rw [exportedClauses_of_closed closed]
  rfl

end SearchSolver

namespace Simplifier

variable {before taken sent after : Simplifier} {records more : List Record} {solver : SearchSolver}

/-- What is exported is over as many variables as there are. -/
theorem exportedClauses_inRange (standing : sent.Standing records) (numbers : sent.Numbers)
    (small : sent.numVars ≤ Literal.maxVar) : InRange sent.exportedClauses := by
  cases closed : sent.engine.unsat with
  | true =>
    rw [exportedClauses_of_closed closed]
    decide
  | false =>
    let _ : Realm := .all
    have exportable := standing.exportable closed
    intro exported member literal inside
    obtain ⟨clause, isClause, rfl⟩ :=
      (mem_exportedClauses_iff exportable standing.sound closed numbers).1 member
    obtain ⟨original, isLiteral, rfl⟩ := List.mem_map.1 inside
    obtain ⟨positive, inVars, _⟩ := standing.sound.wellFormed.known_of_mem isClause isLiteral
    obtain ⟨number, found⟩ := numbers clause isClause original isLiteral
    obtain ⟨positiveNumber, few, _⟩ := number?_inRange exportable positive inVars found
    have renamed : (original.renamed sent.rename).natAbs = number := by
      rw [Literal.natAbs_renamed, rename_eq found]
    refine ⟨fun zero => ?_, ?_⟩
    · rw [zero] at renamed
      exact positiveNumber.ne renamed
    · rw [renamed]
      exact few.trans (exportable.numExported_le.trans small)

/-- The formula of a solver was taken over and simplified. Models go over in both
directions, backwards with the help of the records. -/
structure Simplifies (solver : SearchSolver) (before : Simplifier) (records more : List Record)
    (sent : Simplifier) : Prop where
  standing : sent.Standing (records ++ more)
  numVars : before.numVars ≤ sent.numVars
  small : sent.numVars ≤ Literal.maxVar
  settings : sent.engine.settings = before.engine.settings
  plain : before.engine.settings.renumbering = false → sent.numbering.isActive = false
  numbers : sent.Numbers
  within : ∀ record ∈ more, ∀ literal ∈ record.literals,
    0 < literal.var ∧ literal.var ≤ sent.numVars
  forth : ∀ values, (∀ literal ∈ before.engine.picture.root, literal.Holds values) →
    solver.Holds values → sent.engine.picture.Holds values
  back : ∀ values, sent.engine.picture.Holds values → solver.Holds (unwind more values)
  refuted : sent.engine.unsat = true → before.engine.unsat = true ∨
    ∀ values, (∀ literal ∈ before.engine.picture.root, literal.Holds values) →
      ¬ solver.Holds values

/-- Without a numbering, reading a proper solver leaves few variables. -/
theorem MakesRoom.small_of_proper {numbers : List Nat} (room : before.MakesRoom numbers after)
    (inactive : before.numbering.isActive = false) (small : before.numVars ≤ Literal.maxVar)
    (proper : solver.Proper)
    (part : numbers ⊆ solver.numVars :: Solver.numbersIn (Solver.handed solver solver.clauses)) :
    after.numVars ≤ Literal.maxVar := by
  refine room.bounded inactive _ small fun number member => ?_
  rcases List.mem_cons.1 (part member) with rfl | inLists
  · exact proper.numVars
  · obtain ⟨value, isValue, rfl⟩ := List.mem_map.1 inLists
    obtain ⟨clause, isClause, inside⟩ := List.mem_flatten.1 isValue
    rw [proper.handed_inRange.var_ofInt isClause inside]
    exact (proper.handed_inRange clause isClause value inside).2

theorem unsat_of_verdict {engine : Engine} (isUnsat : verdict engine = .unsat) :
    engine.unsat = true := by
  unfold verdict at isUnsat
  split at isUnsat
  next closed => exact closed
  next => split at isUnsat <;> cases isUnsat

/-- A formula that was taken over is simplified by a run. -/
theorem simplifies_of_moves (proper : solver.Proper) (isOpen : solver.inconsistent = false)
    (inactive : before.numbering.isActive = false) (small : before.numVars ≤ Literal.maxVar)
    (replaces : Solver.Replaces before solver.numVars (Solver.handed solver solver.clauses) taken)
    (standing : sent.Standing (records ++ more)) (numVars : sent.numVars = taken.numVars)
    (moves : Moves taken [] more sent) : Simplifies solver before records more sent := by
  obtain ⟨middle, room, refills⟩ := replaces.room
  obtain ⟨_, widens⟩ := room.widens
  have inactiveTaken : taken.numbering.isActive = false := by
    rw [refills.numbering, room.active, inactive]
  have settings : taken.engine.settings = before.engine.settings :=
    refills.settings.trans widens.settings
  have holds : ∀ values, taken.engine.picture.Holds values ↔
      (∀ literal ∈ before.engine.picture.root, literal.Holds values) ∧ solver.Holds values :=
    fun values => (replaces.holds inactive values).trans
      (and_congr_right fun _ => (proper.holds_iff isOpen).symm)
  have noneTaken : ∀ {values}, ∀ clause ∈ ([] : List (List Literal)), ClauseHolds values clause := by
    simp
  constructor
  case standing => exact standing
  case numVars => exact room.le_numVars.trans (refills.numVars.ge.trans numVars.ge)
  case small =>
    rw [numVars, refills.numVars]
    exact room.small_of_proper inactive small proper (List.Subset.refl _)
  case settings => exact moves.settings.trans settings
  case plain =>
    intro plain
    rcases moves.renumbers with ⟨active, _⟩ | ⟨wanted, _⟩
    · exact active.trans inactiveTaken
    · rw [settings, plain] at wanted
      cases wanted
  case numbers =>
    refine numbers_of_numbered fun name appears => ?_
    obtain ⟨clause, isClause, literal, inside, rfl⟩ := appears
    let _ : Realm := .all
    obtain ⟨positive, _⟩ := standing.sound.wellFormed.known_of_mem isClause inside
    refine moves.renumbers.numbered positive (.inl fun active => ?_)
      (.inl ⟨clause, isClause, literal, inside, rfl⟩)
    rw [inactiveTaken] at active
    cases active
  case within =>
    intro record member literal inside
    obtain ⟨positive, inVars, _⟩ := moves.within record member literal inside
    exact ⟨positive, inVars⟩
  case forth => exact fun values root held => moves.forth values ((holds values).2 ⟨root, held⟩) noneTaken
  case back => exact fun values held => ((holds _).1 (moves.back values held)).2
  case refuted =>
    intro closed
    rcases moves.refuted closed with already | noModel
    · exact .inl (replaces.unsat ▸ already)
    · exact .inr fun values root held => noModel values ((holds values).2 ⟨root, held⟩) noneTaken

end Simplifier

namespace SearchSolver

open Simplifier

variable {solver middle : SearchSolver} {before : Simplifier} {records : List Record}
  {failed : Error → SearchSolver × Simplifier → Prop}

/-- How an exchange with a proper solver comes out. -/
inductive Trades (solver : SearchSolver) (before : Simplifier) (records : List Record) :
    Status → SearchSolver × Simplifier → Prop
  /-- The formula has no model. -/
  | refuted {left : SearchSolver} {after : Simplifier} (closed : left.inconsistent = true)
    (noModel : before.engine.unsat = true ∨
      ∀ values, (∀ literal ∈ before.engine.picture.root, literal.Holds values) →
        ¬ solver.Holds values) : Trades solver before records .unsat (left, after)
  /-- The formula was not taken over. -/
  | refused {left : SearchSolver} {after : Simplifier} (isOpen : left.inconsistent = false)
    (proper : left.Proper) (holds : ∀ values, left.Holds values ↔ solver.Holds values)
    (passes : before.Passes [] after) (standing : after.Standing records)
    (inactive : after.numbering.isActive = false) (small : after.numVars ≤ Literal.maxVar)
    (root : after.engine.picture.root = before.engine.picture.root)
    (unsat : after.engine.unsat = before.engine.unsat) (numVars : left.numVars = solver.numVars)
    (room : left.numVars ≤ after.numExported) : Trades solver before records .unknown (left, after)
  /-- The formula was simplified and handed back to the solver, which had propagated. -/
  | simplified {status : Status} {left middle : SearchSolver} {sent widened after : Simplifier}
    {more : List Record} (propagated : propagate solver = .done () middle)
    (derives : solver.Derives middle) (simplifies : Simplifies middle before records more sent)
    (takes : ({ middle with clauses := [] } : SearchSolver).TakesBack sent.exportedClauses left)
    (unsat : status = .unsat → sent.engine.unsat = true ∨ left.inconsistent = true)
    (widens : sent.Widens (left.numVars - sent.numExported) widened)
    (numbering : after.numbering = widened.numbering)
    (same : left.inconsistent = false → after = widened) :
    Trades solver before records status (left, after)

/-- A proper solver that got its own clauses back is as it was. -/
theorem Proper.of_givenBack {left : SearchSolver} (proper : middle.Proper)
    (gains : ({ middle with clauses := [] } : SearchSolver).Gains middle.clauses left) :
    left.Proper ∧ left.numVars = middle.numVars ∧ left.inconsistent = middle.inconsistent ∧
      ∀ values, left.Holds values ↔ middle.Holds values := by
  have numVars : left.numVars = middle.numVars := by
    rw [gains.numVars]
    refine Nat.le_antisymm (foldl_max_le (Nat.le_refl _) fun literal member => ?_)
      (le_foldl_max _ _).1
    obtain ⟨clause, isClause, inside⟩ := List.mem_flatten.1 member
    exact (proper.clauses clause isClause literal inside).2
  have clauses : left.clauses = middle.clauses := gains.clauses
  have trail : left.trail = middle.trail := gains.trail
  have inconsistent : left.inconsistent = middle.inconsistent := gains.inconsistent
  refine ⟨⟨?_, ?_, numVars ▸ proper.numVars⟩, numVars, inconsistent, fun values => ?_⟩
  · rw [clauses, numVars]
    exact proper.clauses
  · rw [trail, numVars]
    exact proper.trail
  · exact ⟨fun holds => ⟨inconsistent ▸ holds.isOpen, clauses ▸ holds.clauses, trail ▸ holds.trail⟩,
      fun holds => ⟨inconsistent.trans holds.isOpen, clauses ▸ holds.clauses, trail ▸ holds.trail⟩⟩

/-- If the formula of a proper solver is not taken over, either it has no model, or the
solver gets it back. -/
theorem giveUp_ends {cause : Error} {left : SearchSolver} {refused : Simplifier}
    (standing : before.Standing records) (inactive : before.numbering.isActive = false)
    (small : before.numVars ≤ Literal.maxVar) (proper : middle.Proper)
    (isOpen : middle.inconsistent = false) (derives : solver.Derives middle)
    (refuses : Solver.Refuses (middle, before) cause (left, refused)) :
    (Solver.giveUp SearchSolver cause).Ends (left, refused)
      (fun status after => Trades solver before records status after) failed := by
  have known := ne_invariantBroken (known_of_refuses refuses)
  obtain ⟨passes, further⟩ := refuses.passes standing
  obtain ⟨numbers, roomy, room, refills, part⟩ := refuses.room
  unfold Solver.giveUp Solver.conclude
  refine .seq (.onSecond ((conclude_ends known).imp ?_ fun _ _ held => held))
  rintro status concluded notes
  have passesOn : before.Passes [] concluded := passes.trans notes.refills.passes
  have standingOn := notes.refills.standing further
  cases notes with
  | refuted isUnsat proof =>
    rw [if_pos rfl]
    refine .seq (.attempt (.of_failed (handBack_of_closed rfl) (.step rfl (.pure (.refuted rfl
      (.inr fun values root holds => ?_))))))
    have held := (derives.holds_iff values).2 holds
    cases refuses.reason with
    | untaken ended => cases ended
    | unread took back _ _ _ =>
      cases took
      rcases back with isEmpty | ⟨_, rfl | rfl⟩
      · obtain ⟨_, member⟩ := (giveAll_ends middle.clauses).failed_of_eq isEmpty
        obtain ⟨_, inside, _⟩ := held.clauses [] member
        cases inside
      · cases isUnsat
      · cases isUnsat
    | unstored took reason =>
      cases took
      rcases reason with ⟨rfl, _⟩ | ⟨_, noModel⟩
      · cases isUnsat
      · exact noModel inactive values root ((proper.holds_iff isOpen).1 held)
  | told notUnsat notices =>
    rw [if_neg (by decide)]
    refine .pure ?_
    have inactiveAfter : refused.numbering.isActive = false := by
      rw [refills.numbering, room.active, inactive]
    have smallAfter : refused.numVars ≤ Literal.maxVar := by
      rw [refills.numVars]
      exact room.small_of_proper inactive small proper (part _ _ rfl)
    cases refuses.reason with
    | untaken ended => cases ended
    | unread took back _ _ sameRoot =>
      cases took
      rcases back with isEmpty | ⟨given, _⟩
      · rw [((giveAll_ends middle.clauses).failed_of_eq isEmpty).1] at notUnsat
        cases notUnsat
      · obtain ⟨properLeft, numVars, sameVerdict, holds⟩ :=
          proper.of_givenBack ((giveAll_ends middle.clauses).done_of_eq given)
        exact .refused (sameVerdict.trans isOpen) properLeft
          (fun values => (holds values).trans (derives.holds_iff values)) passesOn standingOn
          inactiveAfter smallAfter sameRoot refuses.unsat (numVars.trans derives.numVars)
          (numVars ▸ refuses.enough)
    | unstored took reason =>
      cases took
      rcases reason with ⟨_, _, value, member, nonzero, unnamed⟩ | ⟨isUnsat, _⟩
      · obtain ⟨clause, isClause, inside⟩ := List.mem_flatten.1 member
        rw [proper.handed_inRange.var_ofInt isClause inside] at unnamed
        exact absurd (Int.natAbs_eq_zero.1 unnamed) nonzero
      · rw [isUnsat] at notUnsat
        cases notUnsat

/-- A formula that was taken over from a proper solver is simplified and handed back. -/
theorem simplifyAndHandBack_ends {taken : Simplifier} {inprocessing : Bool}
    (standing : taken.Standing records) (inactive : before.numbering.isActive = false)
    (small : before.numVars ≤ Literal.maxVar) (proper : middle.Proper)
    (isOpen : middle.inconsistent = false) (propagated : propagate solver = .done () middle)
    (derives : solver.Derives middle)
    (replaces : Solver.Replaces before middle.numVars (Solver.handed middle middle.clauses) taken) :
    (Solver.simplifyAndHandBack SearchSolver inprocessing).Ends
      (({ middle with clauses := [] } : SearchSolver), taken)
      (fun status after => Trades solver before records status after) failed := by
  unfold Solver.simplifyAndHandBack
  refine .seq (.onSecond ((run_moves standing).imp ?_ fun _ _ held => held))
  rintro status sent ⟨rfl, _, numVars, more, standingSent, moves⟩
  have simplifies := simplifies_of_moves proper isOpen inactive small replaces standingSent numVars
    moves
  have inRange := exportedClauses_inRange standingSent simplifies.numbers simplifies.small
  refine .seq (.attempt ((handBack_ends proper.withoutClauses inRange).imp ?_ ?_))
  · rintro _ ⟨left, _⟩ ⟨rfl, takes⟩
    refine .step rfl (.seq (.onSecond ((reserveExported_widens _
      standingSent.sane.trail.nonempty).imp (fun _ widened widens => ?_) fun _ _ held => held)))
    exact .pure (.simplified propagated derives simplifies takes
      (fun isUnsat => .inl (unsat_of_verdict isUnsat)) widens rfl fun _ => rfl)
  · rintro cause ⟨left, _⟩ ⟨isUnsat, rfl, closed, takes⟩
    refine .step rfl (.seq (.onSecond ((reserveExported_widens _
      standingSent.sane.trail.nonempty).imp (fun _ widened widens => ?_) fun _ _ held => held)))
    have known : ∀ message, cause ≠ .invariantBroken message := by
      rintro message rfl
      cases isUnsat
    dsimp only
    rw [isUnsat, if_pos rfl]
    unfold Solver.conclude
    refine .seq (.onSecond ((conclude_ends known).imp (fun _ _ notes => ?_) fun _ _ held => held))
    exact .pure (.simplified propagated derives simplifies takes (fun _ => .inr closed) widens
      notes.refills.numbering fun isOpen => absurd (closed.symm.trans isOpen) (by decide))

/-- Every exchange with a proper solver comes out in one of the three ways. -/
theorem roundTrip_trades {inprocessing : Bool} (standing : before.Standing records)
    (inactive : before.numbering.isActive = false) (small : before.numVars ≤ Literal.maxVar)
    (proper : solver.Proper) :
    (Solver.roundTrip SearchSolver inprocessing).Ends (solver, before)
      (fun status after => Trades solver before records status after) failed := by
  unfold Solver.roundTrip
  refine (isRefuted_ends proper).bind ?_
  rintro isRefuted ⟨asked, _⟩ ⟨rfl, ⟨rfl, closed, noModel⟩ | ⟨rfl, isOpen, propagated, derives⟩⟩
  · rw [if_pos rfl]
    unfold Solver.conclude
    refine .seq (.onSecond ((conclude_ends (by simp)).imp (fun _ _ _ => ?_) fun _ _ held => held))
    exact .pure (.refuted closed (.inr fun values _ => noModel values))
  · have properAsked := derives.proper proper
    rw [if_neg Bool.false_ne_true]
    refine .seq (.attempt ((Solver.takeOver_ends standing).imp ?_ ?_))
    · rintro _ ⟨taken, replaced⟩ ⟨clauses, took, replaces⟩
      cases took
      exact simplifyAndHandBack_ends (replaces.passes standing).2 inactive small properAsked isOpen
        propagated derives replaces
    · rintro cause ⟨left, refused⟩ refuses
      exact giveUp_ends standing inactive small properAsked isOpen derives refuses

end SearchSolver

/-! ## Numbers of variables that came in -/

namespace Simplifier

variable {sent widened simplifier : Simplifier} {records : List Record} {count : Nat}

/-- Variables keep their numbers when others come in. -/
theorem Widens.number?_eq (widens : sent.Widens count widened)
    (standing : sent.Standing records) {name number : Nat}
    (found : sent.number? name = some number) : widened.number? name = some number := by
  have standingWidened := widens.standing standing
  unfold number? at found ⊢
  rw [widens.active]
  split at found
  next active =>
    rw [if_pos active]
    obtain ⟨i, atPlace, rfl⟩ :=
      (Numbering.number?_eq_some (standing.numbered active).1).1 found
    refine (Numbering.number?_eq_some
      (standingWidened.numbered (widens.active.trans active)).1).2 ⟨i, ?_, rfl⟩
    rw [widens.names active]
    rw [List.getElem?_append_left (List.getElem?_eq_some_iff.1 atPlace).1, atPlace]
  next inactive => rwa [if_neg inactive]

theorem Widens.formula (widens : sent.Widens count widened) :
    widened.engine.picture.formula = sent.engine.picture.formula :=
  Picture.formula_eq_of_same widens.clauses widens.root

/-- New variables keep all numbered. -/
theorem Widens.numbers (widens : sent.Widens count widened) (standing : sent.Standing records)
    (numbers : sent.Numbers) : widened.Numbers := by
  intro clause member literal inside
  rw [widens.formula] at member
  obtain ⟨number, found⟩ := numbers clause member literal inside
  exact ⟨number, widens.number?_eq standing found⟩

/-- The exported clauses stay when variables come in. -/
theorem Widens.mem_exportedClauses (widens : sent.Widens count widened)
    (standing : sent.Standing records) (numbers : sent.Numbers) {exported : List Int} :
    exported ∈ widened.exportedClauses ↔ exported ∈ sent.exportedClauses := by
  cases closed : sent.engine.unsat with
  | true => rw [exportedClauses_of_closed closed, exportedClauses_of_closed (widens.unsat.trans closed)]
  | false =>
    let _ : Realm := .all
    have standingWidened := widens.standing standing
    have openWidened := widens.unsat.trans closed
    rw [mem_exportedClauses_iff (standing.exportable closed) standing.sound closed numbers,
      mem_exportedClauses_iff (standingWidened.exportable openWidened) standingWidened.sound
        openWidened (widens.numbers standing numbers), widens.formula]
    refine exists_congr fun clause => and_congr_right fun member => ?_
    have same : clause.map (Literal.renamed widened.rename) =
        clause.map (Literal.renamed sent.rename) := by
      refine List.map_congr_left fun literal inside => ?_
      obtain ⟨number, found⟩ := numbers clause member literal inside
      unfold Literal.renamed
      rw [rename_eq found, rename_eq (widens.number?_eq standing found)]
    rw [same]

/-- Values that literals give, where those that are not given are true. -/
def completed (literals : List Int) (name : Nat) : Bool := (valueIn literals name).getD true

theorem satisfies_completed {literals clause : List Int} (satisfied : SatisfiedBy literals clause) :
    Satisfies (completed literals) clause := by
  obtain ⟨literal, inside, given⟩ := satisfied
  refine ⟨literal, inside, ?_⟩
  unfold completed
  rw [given, Option.getD_some]

/-- If what literals give satisfies the exported formula, the values that are read from
them satisfy the formula. -/
theorem Reads.holds_of_completed (standing : simplifier.Standing records)
    (isOpen : simplifier.engine.unsat = false) (numbers : simplifier.Numbers)
    {literals : List Int} {values : Assignment} (reads : simplifier.Reads literals values)
    (satisfied : ∀ clause ∈ simplifier.exportedClauses, Satisfies (completed literals) clause) :
    simplifier.engine.picture.Holds values := by
  let _ : Realm := .all
  have exportable := standing.exportable isOpen
  have renamed := holds_of_satisfies exportable standing.sound isOpen numbers satisfied
  intro clause member
  obtain ⟨literal, inside, isTrue⟩ := renamed clause member
  refine ⟨literal, inside, ?_⟩
  obtain ⟨positive, small, _⟩ := standing.sound.wellFormed.known_of_mem member inside
  obtain ⟨number, found⟩ := numbers clause member literal inside
  by_cases atRoot : ∃ root ∈ simplifier.engine.trail.facts, root.var = literal.var
  · obtain ⟨root, isRoot, sameVar⟩ := atRoot
    obtain ⟨_, single, rootTrue⟩ := renamed [root] (Picture.mem_formula_of_root isRoot)
    rw [List.mem_singleton.1 single] at rootTrue
    have given := reads.root root isRoot
    unfold Literal.Holds at isTrue rootTrue given ⊢
    rw [sameVar] at rootTrue given
    rw [given, ← rootTrue, isTrue]
  · unfold Literal.Holds at isTrue ⊢
    rw [← isTrue, reads.other literal.var positive small
      fun root isRoot same => atRoot ⟨root, isRoot, same⟩, found]
    exact congrArg (completed literals) (rename_eq found).symm

/-- Literals are extended to a model of clauses that the values read from them satisfy
once the records are unwound. -/
theorem extendsTo_of_reads (extensible : simplifier.Extensible records)
    (isOpen : simplifier.engine.unsat = false) {literals : List Int} {clauses : List (List Int)}
    (proper : ∀ literal ∈ literals, literal ≠ 0 ∧ literal.natAbs ≤ simplifier.numExported)
    (inVars : ∀ clause ∈ clauses, ∀ literal ∈ clause,
      literal ≠ 0 ∧ literal.natAbs ≤ simplifier.numVars)
    (holds : ∀ values, simplifier.Reads literals values →
      ∀ clause ∈ clauses, Satisfies (unwind records values) clause) :
    simplifier.ExtendsTo literals clauses := by
  obtain ⟨values, reads, extended⟩ := extendModel_eq extensible isOpen proper
  exact ⟨_, extended, natAbs_listing _ _, fun clause member =>
    exists_mem_listing (holds values reads clause member) (inVars clause member)⟩

end Simplifier

end CnfSimplifier
