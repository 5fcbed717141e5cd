import CnfSimplifier.Proofs.ExchangedFormula

/-!
# Sessions with a solver

In a session a solver and a simplifier exchange the formula of the solver any number of
times, and between exchanges the solver learns clauses that follow from what it holds.
The records and the root literals stay with the simplifier meanwhile, and what the
solver holds implies the root literals. So without a numbering models of the first
formula stay models, and models of what the solver holds come back through the records.

With a numbering only the first exchange is looked at.
-/
namespace CnfSimplifier

namespace SearchSolver

open Simplifier

variable {solver middle left start final : SearchSolver}
  {before sent widened after : Simplifier} {records more : List Record} {values : Assignment}

/-! ## What the solver holds after an exchange -/

/-- What the solver holds says what the simplifier sent. -/
theorem TakesBack.holds_sent
    (takes : ({ middle with clauses := [] } : SearchSolver).TakesBack sent.exportedClauses left)
    (holds : left.Holds values) :
    sent.engine.unsat = false ∧ ∀ clause ∈ sent.exportedClauses, Satisfies values clause := by
  have satisfied := ((takes.holds values).1 holds).2
  refine ⟨Bool.eq_false_iff.2 fun closed => ?_, satisfied⟩
  rw [exportedClauses_of_closed closed] at satisfied
  obtain ⟨_, member, _⟩ := satisfied [] List.mem_cons_self
  cases member

/-- A model of what was sent gives a model of what the solver holds, if the numbers of its
root literals are their own. -/
theorem TakesBack.exists_model {count : Nat}
    (takes : ({ middle with clauses := [] } : SearchSolver).TakesBack sent.exportedClauses left)
    (standing : sent.Standing records) (numbers : sent.Numbers) (isOpen : sent.engine.unsat = false)
    (widens : sent.Widens count widened)
    (keeps : ∀ literal ∈ middle.trail, widened.number? literal.natAbs = some literal.natAbs)
    (held : middle.Holds values) (holds : sent.engine.picture.Holds values) :
    ∃ renamed, left.Holds renamed ∧ ∀ name, renamed (widened.rename name) = values name := by
  let _ : Realm := .all
  have standingWidened := widens.standing standing
  have openWidened := widens.unsat.trans isOpen
  have holdsWidened : widened.engine.picture.Holds values :=
    (Picture.holds_of_same widens.clauses widens.root).2 holds
  obtain ⟨renamed, satisfied, carried⟩ := exists_exported_model
    (standingWidened.exportable openWidened) standingWidened.sound openWidened
    (widens.numbers standing numbers) holdsWidened
  refine ⟨renamed, (takes.holds renamed).2 ⟨⟨held.isOpen, by simp, fun literal atRoot => ?_⟩,
    fun clause member => satisfied clause ((widens.mem_exportedClauses standing numbers).2 member)⟩,
    carried⟩
  obtain ⟨_, single, isTrue⟩ := held.trail literal atRoot
  rw [List.mem_singleton.1 single] at isTrue
  have own := carried literal.natAbs
  rw [rename_eq (keeps literal atRoot)] at own
  exact ⟨literal, List.mem_cons_self, own.trans isTrue⟩

/-- Literals satisfy the formula of a solver. -/
def SatisfiedBy (literals : List Int) (solver : SearchSolver) : Prop :=
  solver.inconsistent = false ∧
    ∀ clause ∈ Solver.handed solver solver.clauses, CnfSimplifier.SatisfiedBy literals clause

instance (literals : List Int) (solver : SearchSolver) : Decidable (SatisfiedBy literals solver) :=
  inferInstanceAs (Decidable (_ ∧ _))

/-- A list that satisfies all clauses gives a model. -/
theorem SatisfiedBy.holds {literals : List Int} (satisfied : SatisfiedBy literals solver) :
    solver.Holds (completed literals) where
  isOpen := satisfied.1
  clauses clause member :=
    satisfies_completed (satisfied.2 clause (List.mem_append_right _ member))
  trail literal member := satisfies_completed
    (satisfied.2 [literal] (List.mem_append_left _ (List.mem_map_of_mem member)))

theorem Holds.handed (holds : solver.Holds values) :
    ∀ clause ∈ Solver.handed solver solver.clauses, Satisfies values clause := by
  refine List.forall_mem_append.2 ⟨fun clause unit => ?_, holds.clauses⟩
  obtain ⟨literal, atRoot, rfl⟩ := List.mem_map.1 unit
  exact holds.trail literal atRoot

theorem Proper.handed (proper : solver.Proper) :
    ∀ clause ∈ Solver.handed solver solver.clauses, ∀ literal ∈ clause,
      literal ≠ 0 ∧ literal.natAbs ≤ solver.numVars := by
  refine List.forall_mem_append.2 ⟨fun clause unit => ?_, proper.clauses⟩
  obtain ⟨literal, atRoot, rfl⟩ := List.mem_map.1 unit
  exact List.forall_mem_singleton.2 (proper.trail literal atRoot)

/-- Only the values of its variables matter to a solver. -/
theorem Holds.congr {values others : Assignment} (holds : solver.Holds values)
    (proper : solver.Proper)
    (agree : ∀ name, 0 < name → name ≤ solver.numVars → values name = others name) :
    solver.Holds others := by
  have carried : ∀ clause ∈ Solver.handed solver solver.clauses, Satisfies others clause := by
    intro clause member
    obtain ⟨literal, inside, isTrue⟩ := holds.handed clause member
    obtain ⟨nonzero, inVars⟩ := proper.handed clause member literal inside
    exact ⟨literal, inside, (agree _ (Int.natAbs_pos.2 nonzero) inVars).symm.trans isTrue⟩
  exact ⟨holds.isOpen, fun clause member => carried clause (List.mem_append_right _ member),
    fun literal atRoot => carried [literal] (List.mem_append_left _ (List.mem_map_of_mem atRoot))⟩

/-! ## Sessions -/

/-- A session, with the answers of the exchanges, the last one first. -/
inductive Session (start : SearchSolver × Simplifier) :
    List Status → SearchSolver × Simplifier → Prop
  | nil : Session start [] start
  /-- The solver is given a clause that follows from what it holds. -/
  | learn {statuses : List Status} {solver after : SearchSolver} {simplifier : Simplifier}
    {answer : Except Error Unit} (clause : List Int)
    (earlier : Session start statuses (solver, simplifier))
    (inRange : ∀ literal ∈ clause, literal ≠ 0 ∧ literal.natAbs ≤ Literal.maxVar)
    (implied : ∀ values, solver.Holds values → Satisfies values clause)
    (ended : (addClause clause).attempt solver = .done answer after) :
    Session start statuses (after, simplifier)
  | exchange {statuses : List Status} {status : Status} {before after : SearchSolver × Simplifier}
    (inprocessing : Bool) (earlier : Session start statuses before)
    (ended : Solver.roundTrip SearchSolver inprocessing before = .done status after) :
    Session start (status :: statuses) after

/-- What ties a solver and a simplifier together that have not refuted the formula. -/
structure Tied (start solver : SearchSolver) (simplifier : Simplifier) (records : List Record) :
    Prop where
  isOpen : solver.inconsistent = false
  proper : solver.Proper
  numVars : start.numVars ≤ solver.numVars
  standing : simplifier.Standing records
  inactive : simplifier.numbering.isActive = false
  plain : simplifier.engine.settings.renumbering = false
  small : simplifier.numVars ≤ Literal.maxVar
  within : ∀ record ∈ records, ∀ literal ∈ record.literals,
    0 < literal.var ∧ literal.var ≤ simplifier.numVars
  forth : ∀ values, start.Holds values → solver.Holds values
  back : ∀ values, solver.Holds values → start.Holds (unwind records values)
  root : ∀ values, solver.Holds values →
    ∀ literal ∈ simplifier.engine.picture.root, literal.Holds values
  refuted : simplifier.engine.unsat = true → ∀ values, ¬ start.Holds values

/-- In a session the solver has refuted a formula without models, or it is tied to the
simplifier. -/
inductive Linked (start : SearchSolver) (state : SearchSolver × Simplifier) : Prop
  | refuted (closed : state.1.inconsistent = true) (noModel : ∀ values, ¬ start.Holds values)
  | tied {records : List Record} (tied : Tied start state.1 state.2 records)

/-- A solver with a clause more that follows holds what it held. -/
theorem Tied.learn {simplifier : Simplifier} {clause : List Int} {answer : Except Error Unit}
    (tied : Tied start solver simplifier records)
    (inRange : ∀ literal ∈ clause, literal ≠ 0 ∧ literal.natAbs ≤ Literal.maxVar)
    (implied : ∀ values, solver.Holds values → Satisfies values clause)
    (ended : (addClause clause).attempt solver = .done answer final) :
    Linked start (final, simplifier) := by
  by_cases empty : clause = []
  · subst empty
    cases ended
    refine .refuted rfl fun values holds => ?_
    obtain ⟨_, member, _⟩ := implied values (tied.forth values holds)
    cases member
  · obtain ⟨after, added, gains⟩ : ∃ after, addClause clause solver = .done () after ∧
        solver.Gains [clause] after := addClause_of_nonempty empty
    unfold Run.attempt at ended
    rw [added] at ended
    cases ended
    have receives := gains.receives
    have holds : ∀ values, final.Holds values ↔ solver.Holds values := fun values =>
      (receives.holds values).trans ⟨fun held => held.1, fun held =>
        ⟨held, List.forall_mem_singleton.2 (implied values held)⟩⟩
    refine .tied ⟨gains.inconsistent.trans tied.isOpen,
      receives.proper tied.proper (List.forall_mem_singleton.2 inRange), ?_, tied.standing,
      tied.inactive, tied.plain, tied.small, tied.within,
      fun values held => (holds values).2 (tied.forth values held),
      fun values held => tied.back values ((holds values).1 held),
      fun values held => tied.root values ((holds values).1 held), tied.refuted⟩
    rw [receives.numVars]
    exact tied.numVars.trans (le_foldl_max _ _).1

/-- Without a numbering, a model of the clauses that were handed back is one of the simplified
formula. -/
theorem holds_sent_of_plain (standing : sent.Standing records) (numbers : sent.Numbers)
    (inactive : sent.numbering.isActive = false)
    (takes : ({ middle with clauses := [] } : SearchSolver).TakesBack sent.exportedClauses final)
    (holds : final.Holds values) : sent.engine.picture.Holds values := by
  obtain ⟨isOpen, satisfied⟩ := takes.holds_sent holds
  let _ : Realm := .all
  have read := holds_of_satisfies (standing.exportable isOpen) standing.sound isOpen numbers satisfied
  have same : (fun name => values (sent.rename name)) = values := funext fun name =>
    congrArg values (rename_eq (number?_of_inactive inactive name))
  rwa [same] at read

/-- Without a numbering, a model of the simplified formula is one of the clauses that were
handed back. -/
theorem holds_final_of_plain {count : Nat} (simplifies : Simplifies middle before records more sent)
    (takes : ({ middle with clauses := [] } : SearchSolver).TakesBack sent.exportedClauses final)
    (isOpen : sent.engine.unsat = false) (widens : sent.Widens count widened)
    (inactive : widened.numbering.isActive = false) (holds : middle.Holds values)
    (root : ∀ literal ∈ before.engine.picture.root, literal.Holds values) : final.Holds values := by
  obtain ⟨renamed, holdsNow, carried⟩ := takes.exists_model simplifies.standing
    simplifies.numbers isOpen widens (fun _ _ => number?_of_inactive inactive _) holds
    (simplifies.forth values root holds)
  have same : renamed = values := funext fun name =>
    (congrArg renamed (rename_eq (number?_of_inactive inactive name)).symm).trans (carried name)
  exact same ▸ holdsNow

/-- The simplifier stays tied to the solver that got the simplified formula back. -/
theorem Tied.handedBack (tied : Tied start solver before records) (derives : solver.Derives middle)
    (simplifies : Simplifies middle before records more sent)
    (takes : ({ middle with clauses := [] } : SearchSolver).TakesBack sent.exportedClauses final)
    (widens : sent.Widens (final.numVars - sent.numExported) widened)
    (isOpen : final.inconsistent = false)
    (forth : ∀ values, start.Holds values → final.Holds values)
    (refuted : sent.engine.unsat = true → ∀ values, ¬ start.Holds values) :
    Tied start final widened (records ++ more) := by
  have inactive := simplifies.plain tied.plain
  have back : ∀ values, final.Holds values → sent.engine.picture.Holds values := fun _ holds =>
    holds_sent_of_plain simplifies.standing simplifies.numbers inactive takes holds
  constructor
  case isOpen => exact isOpen
  case proper => exact takes.proper isOpen
  case numVars => exact (tied.numVars.trans derives.numVars.ge).trans (takes.numVars isOpen)
  case standing => exact widens.standing simplifies.standing
  case inactive => exact widens.active.trans inactive
  case plain =>
    rw [widens.settings, simplifies.settings]
    exact tied.plain
  case small =>
    exact widens.makesRoom.bounded inactive _ simplifies.small
      (List.forall_mem_singleton.2 (takes.proper isOpen).numVars)
  case within =>
    refine List.forall_mem_append.2 ⟨fun record member literal inside => ?_,
      fun record member literal inside => ?_⟩
    · obtain ⟨positive, inVars⟩ := tied.within record member literal inside
      exact ⟨positive, (inVars.trans simplifies.numVars).trans widens.le_numVars⟩
    · obtain ⟨positive, inVars⟩ := simplifies.within record member literal inside
      exact ⟨positive, inVars.trans widens.le_numVars⟩
  case forth => exact forth
  case back =>
    intro values holds
    rw [unwind_append]
    exact tied.back _ ((derives.holds_iff _).1 (simplifies.back values (back values holds)))
  case root =>
    intro values holds
    rw [widens.root]
    intro literal atRoot
    obtain ⟨_, single, isTrue⟩ := back values holds [literal] (Picture.mem_formula_of_root atRoot)
    exact List.mem_singleton.1 single ▸ isTrue
  case refuted => exact fun now => refuted (widens.unsat ▸ now)

/-- An exchange in a session. -/
theorem Tied.exchange {status : Status} (tied : Tied start solver before records)
    (trades : Trades solver before records status (final, after)) :
    Linked start (final, after) ∧ (status = .unsat → ∀ values, ¬ start.Holds values) ∧
      (final.inconsistent = false → final.numVars ≤ after.numExported) := by
  cases trades with
  | refuted closed noModel =>
    have none_ : ∀ values, ¬ start.Holds values := by
      intro values holds
      rcases noModel with already | noModel
      · exact tied.refuted already values holds
      · have held := tied.forth values holds
        exact noModel values (tied.root values held) held
    exact ⟨.refuted closed none_, fun _ => none_, fun isOpen => absurd (closed.symm.trans isOpen)
      (by decide)⟩
  | refused isOpen proper holds passes standing inactive small root unsat numVars room =>
    refine ⟨.tied ⟨isOpen, proper, numVars ▸ tied.numVars, standing, inactive,
      (congrArg Settings.renumbering passes.settings).trans tied.plain, small,
      fun record member literal inside => ?_, fun values held => (holds values).2 (tied.forth values held),
      fun values held => tied.back values ((holds values).1 held), fun values held => ?_, ?_⟩,
      nofun, fun _ => room⟩
    · obtain ⟨positive, inVars⟩ := tied.within record member literal inside
      exact ⟨positive, inVars.trans passes.numVars⟩
    · rw [root]
      exact tied.root values ((holds values).1 held)
    · exact fun closed => tied.refuted (unsat ▸ closed)
  | @simplified _ left middle sent widened _ more propagated derives simplifies takes unsat widens
      numbering same =>
    have inactive := widens.active.trans (simplifies.plain tied.plain)
    have refuted : sent.engine.unsat = true → ∀ values, ¬ start.Holds values := by
      intro closed values holds
      have held := tied.forth values holds
      rcases simplifies.refuted closed with already | noModel
      · exact tied.refuted already values holds
      · exact noModel values (tied.root values held) (derives.holds values held)
    have forth : ∀ values, start.Holds values → final.Holds values := by
      intro values holds
      have held := tied.forth values holds
      have isOpen : sent.engine.unsat = false :=
        Bool.eq_false_iff.2 fun closed => refuted closed values holds
      exact holds_final_of_plain simplifies takes isOpen widens inactive
        (derives.holds values held) (tied.root values held)
    have closedOut : final.inconsistent = true → ∀ values, ¬ start.Holds values := by
      intro closed values holds
      rw [(forth values holds).isOpen] at closed
      cases closed
    refine ⟨?_, fun isUnsat => (unsat isUnsat).elim refuted closedOut, fun isOpen => ?_⟩
    · cases closed : final.inconsistent with
      | true => exact .refuted closed (closedOut closed)
      | false =>
        obtain rfl := same closed
        exact .tied (tied.handedBack derives simplifies takes widens closed forth refuted)
    · rw [same isOpen]
      exact widens.le_numExported

/-- A solver that has refuted its formula does so again. -/
theorem roundTrip_of_refuted {inprocessing : Bool} (closed : solver.inconsistent = true) :
    (Solver.roundTrip SearchSolver inprocessing).Ends (solver, before)
      (fun _ after => after.1.inconsistent = true) fun _ _ => False := by
  have isRefuted : Solver.isRefuted SearchSolver (solver, before) = .done true (solver, before) := by
    unfold Solver.isRefuted
    rw [Run.bind_of_done (Run.get_apply _)]
    dsimp only
    rw [show Solver.isConsistent solver = false from congrArg not closed]
    rfl
  unfold Solver.roundTrip
  refine .step isRefuted ?_
  rw [if_pos rfl]
  unfold Solver.conclude
  refine .seq (.onSecond ((conclude_ends (by simp)).imp (fun _ _ _ => ?_) fun _ _ held => held))
  exact .pure closed

/-- An exchange keeps solver and simplifier together. -/
theorem Linked.exchange {state : SearchSolver × Simplifier} {status : Status} {inprocessing : Bool}
    (linked : Linked start state)
    (ended : Solver.roundTrip SearchSolver inprocessing state = .done status (final, after)) :
    Linked start (final, after) ∧ (status = .unsat → ∀ values, ¬ start.Holds values) ∧
      (final.inconsistent = false → final.numVars ≤ after.numExported) := by
  obtain ⟨solver, before⟩ := state
  cases linked with
  | refuted closed noModel =>
    have closedNow : final.inconsistent = true :=
      (roundTrip_of_refuted closed).done_of_eq ended
    exact ⟨.refuted closedNow noModel, fun _ => noModel,
      fun isOpen => absurd (closedNow.symm.trans isOpen) (by decide)⟩
  | tied tied =>
    have ends : (Solver.roundTrip SearchSolver inprocessing).Ends (solver, before)
        (fun status after => Trades solver before _ status after) fun _ _ => False :=
      roundTrip_trades tied.standing tied.inactive tied.small tied.proper
    exact tied.exchange (ends.done_of_eq ended)

/-- A session keeps solver and simplifier together. -/
theorem Session.linked {first : Simplifier} {statuses : List Status}
    {state : SearchSolver × Simplifier} (session : Session (start, first) statuses state)
    (linked : Linked start (start, first)) : Linked start state := by
  induction session with
  | nil => exact linked
  | learn clause earlier inRange implied ended ih =>
    cases ih with
    | tied tied => exact tied.learn inRange implied ended
    | refuted closed noModel =>
      refine .refuted ?_ noModel
      by_cases empty : clause = []
      · subst empty
        cases ended
        rfl
      · obtain ⟨after, added, gains⟩ := addClause_of_nonempty empty
        unfold Run.attempt at ended
        rw [added] at ended
        cases ended
        exact gains.inconsistent.trans closed
  | exchange inprocessing earlier ended ih => exact (ih.exchange ended).1

theorem numVars_ofVars (settings : Settings) (numVars : Nat) :
    (ofVars settings numVars).numVars = numVars := by
  change (Array.replicate (numVars + 1) ({} : VarState)).size - 1 = numVars
  rw [Array.size_replicate, Nat.add_sub_cancel]

/-- A session begins with a solver and a simplifier that knows nothing. -/
theorem linked_ofVars {settings : Settings} {numVars : Nat}
    (plain : settings.renumbering = false) (small : numVars ≤ Literal.maxVar)
    (proper : start.Proper) : Linked start (start, ofVars settings numVars) := by
  cases closed : start.inconsistent with
  | true =>
    refine .refuted closed fun values holds => ?_
    rw [holds.isOpen] at closed
    cases closed
  | false =>
    have few : numVars < 2 ^ 31 := by
      unfold Literal.maxVar at small
      omega
    refine @Linked.tied _ _ [] ⟨closed, proper, Nat.le_refl _, standing_ofVars settings few, rfl,
      plain, ?_, by simp, fun _ => id, fun _ => id, fun values _ literal atRoot => ?_, nofun⟩
    · rwa [numVars_ofVars]
    · cases atRoot

/-- What is tied together extends models of the solver to models of the first formula. -/
theorem Tied.extendsTo {simplifier : Simplifier} {literals : List Int}
    (tied : Tied start solver simplifier records) (properStart : start.Proper)
    (room : solver.numVars ≤ simplifier.numExported)
    (proper : ∀ literal ∈ literals, literal ≠ 0 ∧ literal.natAbs ≤ simplifier.numExported)
    (satisfied : SatisfiedBy literals solver) :
    simplifier.ExtendsTo literals (Solver.handed start start.clauses) := by
  have held := satisfied.holds
  have isOpen : simplifier.engine.unsat = false :=
    Bool.eq_false_iff.2 fun closed => tied.refuted closed _ (tied.back _ held)
  have extensible := tied.standing.extensible isOpen fun record member literal inside => by
    obtain ⟨positive, inVars⟩ := tied.within record member literal inside
    exact ⟨positive, inVars, Literal.ne_separator_of_le_maxVar (inVars.trans tied.small)⟩
  rw [numExported_of_inactive tied.inactive] at room
  refine extendsTo_of_reads extensible isOpen proper (fun clause member literal inside => ?_)
    fun values reads => ?_
  · obtain ⟨nonzero, inVars⟩ := properStart.handed clause member literal inside
    exact ⟨nonzero, (inVars.trans tied.numVars).trans room⟩
  · -- What is read are the given values, since these agree with the root literals.
    have agree : ∀ name, 0 < name → name ≤ solver.numVars → completed literals name = values name := by
      intro name positive inVars
      by_cases assigned : ∃ literal ∈ simplifier.engine.trail.facts, literal.var = name
      · obtain ⟨literal, atRoot, rfl⟩ := assigned
        exact (tied.root _ held literal atRoot).trans (reads.root literal atRoot).symm
      · rw [reads.other name positive (inVars.trans room) fun literal atRoot same =>
          assigned ⟨literal, atRoot, same⟩, number?_of_inactive tied.inactive]
        rfl
    exact (tied.back values (held.congr tied.proper agree)).handed

/-- Without a numbering, after every exchange of a session an answer that the formula has no
model is right, what the solver holds has a model if the first formula has one, and a model of
what the solver holds is extended to a model of the first formula. -/
theorem models_of_session {settings : Settings} {numVars : Nat} {statuses : List Status}
    {state : SearchSolver × Simplifier} {status : Status} {inprocessing : Bool}
    (plain : settings.renumbering = false) (small : numVars ≤ Literal.maxVar)
    (proper : start.Proper) (session : Session (start, ofVars settings numVars) statuses state)
    (ended : Solver.roundTrip SearchSolver inprocessing state = .done status (final, after)) :
    (status = .unsat → ∀ values, ¬ start.Holds values) ∧
    ((∃ values, final.Holds values) ↔ ∃ values, start.Holds values) ∧
    (final.inconsistent = false → final.numVars ≤ after.numExported) ∧
    ∀ literals : List Int, (∀ literal ∈ literals, literal ≠ 0 ∧ literal.natAbs ≤ after.numExported) →
      SatisfiedBy literals final →
      after.ExtendsTo literals (Solver.handed start start.clauses) := by
  obtain ⟨linked, answered, room⟩ :=
    (session.linked (linked_ofVars plain small proper)).exchange ended
  refine ⟨answered, ?_, room, fun literals inRange satisfied => ?_⟩
  · cases linked with
    | refuted closed noModel =>
      refine ⟨fun ⟨values, holds⟩ => ?_, fun ⟨values, holds⟩ => absurd holds (noModel values)⟩
      have isOpen := holds.isOpen
      rw [closed] at isOpen
      cases isOpen
    | tied tied =>
      exact ⟨fun ⟨values, holds⟩ => ⟨_, tied.back values holds⟩,
        fun ⟨values, holds⟩ => ⟨values, tied.forth values holds⟩⟩
  · cases linked with
    | refuted closed _ => exact absurd (closed.symm.trans satisfied.1) (by decide)
    | tied tied => exact tied.extendsTo proper (room satisfied.1) inRange satisfied

/-- Exchange the formula, and look at what comes out. -/
def exchangeTrial (inprocessing : Bool) (state : SearchSolver × Simplifier)
    (check : Status → SearchSolver → Simplifier → Bool) : Bool :=
  match Solver.roundTrip SearchSolver inprocessing state with
  | .done status after => check status after.1 after.2
  | _ => false

/-- A trial shows an exchange. -/
theorem exists_of_exchangeTrial (inprocessing : Bool) (state : SearchSolver × Simplifier)
    (check : Status → SearchSolver → Simplifier → Bool)
    (tried : exchangeTrial inprocessing state check = true) : ∃ status final after,
      Solver.roundTrip SearchSolver inprocessing state = .done status (final, after) ∧
      check status final after = true := by
  unfold exchangeTrial at tried
  split at tried
  next status after ended => exact ⟨status, after.1, after.2, ended, tried⟩
  next => cases tried

/-- An exchange that substitutes a variable, a unit that the solver learns from three clauses, and
one more exchange. -/
theorem models_of_session_learnt :
    ∃ status final after,
      Session ({ numVars := 6, clauses := [[2, -5], [-2, 5], [1, 2, 6], [1, 5, -6], [1, -5]] },
        ofVars ({ Settings.bare {} with equivalences := true }) 6) [status, .unknown]
        (final, after) ∧
      after.engine.records.count = 2 ∧ final.trail = [1] ∧
      (∃ values, final.Holds values) ∧
      after.ExtendsTo [1, -2, -6] [[2, -5], [-2, 5], [1, 2, 6], [1, 5, -6], [1, -5]] := by
  obtain ⟨status, left, between, first, checked⟩ := exists_of_exchangeTrial false
    (({ numVars := 6, clauses := [[2, -5], [-2, 5], [1, 2, 6], [1, 5, -6], [1, -5]] },
      ofVars ({ Settings.bare {} with equivalences := true }) 6))
    (fun status left between => decide (status = .unknown ∧
        left.clauses = [[1, 2, 6], [1, 2, -6], [1, -2]]) &&
      exchangeTrial true ({ left.grow 1 with clauses := left.clauses ++ [[1]] }, between)
        fun _ final after => decide (after.engine.records.count = 2 ∧ final.trail = [1] ∧
          after.numExported = 6 ∧ SatisfiedBy [1, -2, -6] final)) (by decide +kernel)
  obtain ⟨facts, tried⟩ := Bool.and_eq_true_iff.1 checked
  obtain ⟨rfl, clauses⟩ := of_decide_eq_true facts
  obtain ⟨status, final, after, second, outcome⟩ := exists_of_exchangeTrial _ _ _ tried
  obtain ⟨count, trail, numExported, satisfied⟩ := of_decide_eq_true outcome
  have implied : ∀ values, left.Holds values → Satisfies values [1] := by
    intro values holds
    have third := holds.clauses [1, -2] (by simp [clauses])
    have second := holds.clauses [1, 2, -6] (by simp [clauses])
    have first := holds.clauses [1, 2, 6] (by simp [clauses])
    simp only [Satisfies, List.mem_cons, List.not_mem_nil, or_false, exists_eq_or_imp,
      exists_eq_left] at first second third ⊢
    rcases third with one | notTwo
    · exact one
    rcases first with one | two | six
    · exact one
    · exact absurd (two.symm.trans notTwo) (by decide)
    rcases second with one | two | notSix
    · exact one
    · exact absurd (two.symm.trans notTwo) (by decide)
    · exact absurd (six.symm.trans notSix) (by decide)
  have learnt : (addClause [1]).attempt left =
      .done (.ok ()) { left.grow 1 with clauses := left.clauses ++ [[1]] } := rfl
  have session := (Session.exchange false .nil first).learn [1] (by decide) implied learnt
  obtain ⟨_, _, _, extended⟩ := models_of_session rfl (by decide)
    ⟨by decide, by decide, by decide⟩ session second
  refine ⟨status, final, after, .exchange true session second, count, trail, ⟨_, satisfied.holds⟩, ?_⟩
  exact extended [1, -2, -6] (by rw [numExported]; decide) satisfied

/-! ## The first exchange under a numbering -/

/-- In the first exchange, with a numbering or without one, an answer that the formula has no model
is right, what the solver holds has a model if its formula had one, and a model of what it holds
is extended to a model of its formula, as long as every variable of the root literals that the
solver has when it is taken over has itself for its number afterwards. -/
theorem models_of_first_exchange {settings : Settings} {numVars : Nat} {status : Status}
    {inprocessing : Bool} (small : numVars ≤ Literal.maxVar) (proper : start.Proper)
    (ended : Solver.roundTrip SearchSolver inprocessing (start, ofVars settings numVars) =
      .done status (final, after))
    (keeps : ∀ middle, propagate start = .done () middle → ∀ literal ∈ middle.trail,
      after.number? literal.natAbs = some literal.natAbs) :
    (status = .unsat → ∀ values, ¬ start.Holds values) ∧
    ((∃ values, final.Holds values) ↔ ∃ values, start.Holds values) ∧
    (final.inconsistent = false → final.numVars ≤ after.numExported) ∧
    ∀ literals : List Int, (∀ literal ∈ literals, literal ≠ 0 ∧ literal.natAbs ≤ after.numExported) →
      SatisfiedBy literals final →
      after.ExtendsTo literals (Solver.handed start start.clauses) := by
  have few : numVars < 2 ^ 31 := by
    unfold Literal.maxVar at small
    omega
  have noRoot : ∀ {values : Assignment},
      ∀ literal ∈ (ofVars settings numVars).engine.picture.root, literal.Holds values := nofun
  have ends : (Solver.roundTrip SearchSolver inprocessing).Ends (start, ofVars settings numVars)
      (fun status after => Trades start (ofVars settings numVars) [] status after) fun _ _ => False :=
    roundTrip_trades (standing_ofVars settings few) rfl (by rwa [numVars_ofVars]) proper
  have trades := ends.done_of_eq ended
  cases trades with
  | refuted closed noModel =>
    have none_ : ∀ values, ¬ start.Holds values := fun values =>
      noModel.elim nofun fun noModel => noModel values noRoot
    refine ⟨fun _ => none_, ⟨fun ⟨values, holds⟩ => ?_, fun ⟨values, holds⟩ =>
      absurd holds (none_ values)⟩, fun isOpen => absurd (closed.symm.trans isOpen) (by decide),
      fun literals _ satisfied => absurd (closed.symm.trans satisfied.1) (by decide)⟩
    exact absurd (closed.symm.trans holds.isOpen) (by decide)
  | refused isOpen properFinal holds passes standing inactive smallAfter root unsat numVars room =>
    refine ⟨nofun, exists_congr holds, fun _ => room, fun literals inRange satisfied => ?_⟩
    have openAfter : after.engine.unsat = false := unsat
    have noFacts : after.engine.trail.facts = [] := root
    refine extendsTo_of_reads (standing.extensible openAfter (by simp)) openAfter inRange
      (fun clause member literal inside => ?_) fun values reads => ?_
    · obtain ⟨nonzero, inVars⟩ := proper.handed clause member literal inside
      rw [← numExported_of_inactive inactive]
      exact ⟨nonzero, (inVars.trans numVars.ge).trans room⟩
    · refine (((holds _).1 satisfied.holds).congr proper fun name positive inVars => ?_).handed
      rw [numExported_of_inactive inactive] at room
      rw [unwind_nil, reads.other name positive ((inVars.trans numVars.ge).trans room) (by simp [noFacts]),
        number?_of_inactive inactive]
      rfl
  | @simplified _ left middle sent widened _ more propagated derives simplifies takes unsat widens
      numbering same =>
    have own : ∀ literal ∈ middle.trail, widened.number? literal.natAbs = some literal.natAbs := by
      intro literal atRoot
      have kept := keeps middle propagated literal atRoot
      unfold number? at kept ⊢
      rwa [← numbering]
    have refuted : sent.engine.unsat = true → ∀ values, ¬ start.Holds values := by
      intro closed values holds
      rcases simplifies.refuted closed with already | noModel
      · cases already
      · exact noModel values noRoot (derives.holds values holds)
    have forth : ∀ values, start.Holds values → ∃ renamed, final.Holds renamed := by
      intro values holds
      have heldOn := derives.holds values holds
      have isOpen : sent.engine.unsat = false :=
        Bool.eq_false_iff.2 fun closed => refuted closed values holds
      obtain ⟨renamed, holdsNow, _⟩ := takes.exists_model simplifies.standing simplifies.numbers
        isOpen widens own heldOn (simplifies.forth values noRoot heldOn)
      exact ⟨renamed, holdsNow⟩
    have closedOut : final.inconsistent = true → ∀ values, ¬ start.Holds values := by
      intro closed values holds
      obtain ⟨renamed, holdsNow⟩ := forth values holds
      exact absurd (closed.symm.trans holdsNow.isOpen) (by decide)
    refine ⟨fun isUnsat => (unsat isUnsat).elim refuted closedOut,
      ⟨fun ⟨values, holds⟩ => ?_, fun ⟨values, holds⟩ => forth values holds⟩, fun isOpen => ?_,
      fun literals inRange satisfied => ?_⟩
    · obtain ⟨isOpen, satisfied⟩ := takes.holds_sent holds
      let _ : Realm := .all
      exact ⟨_, (derives.holds_iff _).1 (simplifies.back _ (holds_of_satisfies
        (simplifies.standing.exportable isOpen) simplifies.standing.sound isOpen simplifies.numbers
        satisfied))⟩
    · rw [same isOpen]
      exact widens.le_numExported
    · obtain ⟨isOpen, satisfiedSent⟩ := takes.holds_sent satisfied.holds
      obtain rfl := same satisfied.1
      have standing := widens.standing simplifies.standing
      have openAfter := widens.unsat.trans isOpen
      have extensible := standing.extensible openAfter fun record member literal inside => by
        obtain ⟨positive, inVars⟩ := simplifies.within record member literal inside
        exact ⟨positive, inVars.trans widens.le_numVars,
          Literal.ne_separator_of_le_maxVar (inVars.trans simplifies.small)⟩
      refine extendsTo_of_reads extensible openAfter inRange (fun clause member literal inside => ?_)
        fun values reads => ?_
      · obtain ⟨nonzero, inVars⟩ := proper.handed clause member literal inside
        exact ⟨nonzero, ((inVars.trans derives.numVars.ge).trans (takes.numVars satisfied.1)).trans
          (widens.le_numExported.trans extensible.numExported_le)⟩
      · have holds : after.engine.picture.Holds values :=
          reads.holds_of_completed standing openAfter (widens.numbers simplifies.standing
            simplifies.numbers) fun clause member => satisfiedSent clause
              ((widens.mem_exportedClauses simplifies.standing simplifies.numbers).1 member)
        have holdsSent := (Picture.holds_of_same widens.clauses widens.root).1 holds
        exact ((derives.holds_iff _).1 (simplifies.back _ holdsSent)).handed

/-- The root literal is over the first variable, which keeps its number; of two equivalent variables
only one has a number. -/
theorem models_of_first_exchange_substituted :
    ∃ final after,
      Solver.roundTrip SearchSolver false
        ({ numVars := 6, clauses := [[3, -5], [-3, 5], [3, 4, 6], [-5, -4, -6]], trail := [1] },
          ofVars ({ Settings.bare {} with equivalences := true, renumbering := true }) 0) =
        .done .unknown (final, after) ∧
      final.clauses = [[2, 3, 4], [-2, -3, -4]] ∧ final.trail = [1] ∧
      (∃ values, final.Holds values) ∧
      after.ExtendsTo [1, -2, 3, -4] [[1], [3, -5], [-3, 5], [3, 4, 6], [-5, -4, -6]] := by
  obtain ⟨status, final, after, ended, checked⟩ := exists_of_exchangeTrial false
    ({ numVars := 6, clauses := [[3, -5], [-3, 5], [3, 4, 6], [-5, -4, -6]], trail := [1] },
      ofVars ({ Settings.bare {} with equivalences := true, renumbering := true }) 0)
    (fun status final after => decide (status = .unknown ∧
      final.clauses = [[2, 3, 4], [-2, -3, -4]] ∧ final.trail = [1] ∧ after.numExported = 6 ∧
      after.number? 1 = some 1 ∧ SatisfiedBy [1, -2, 3, -4] final)) (by decide +kernel)
  obtain ⟨rfl, clauses, trail, numExported, own, satisfied⟩ := of_decide_eq_true checked
  obtain ⟨_, _, _, extended⟩ := models_of_first_exchange (by decide)
    ⟨by decide, by decide, by decide⟩ ended fun middle propagated literal atRoot => by
      cases propagated
      obtain rfl := List.mem_singleton.1 atRoot
      exact own
  refine ⟨final, after, ended, clauses, trail, ⟨_, satisfied.holds⟩, ?_⟩
  exact extended [1, -2, 3, -4] (by rw [numExported]; decide) satisfied

/-- The root literal is over the second variable, and in the numbering the second variable is
another one. A formula with a model is refuted. -/
theorem refuted_of_first_exchange :
    ∃ final after,
      Solver.roundTrip SearchSolver false
        ({ numVars := 4, clauses := [[3, 4], [3, -4]], trail := [-2] },
          ofVars ({ Settings.bare {} with renumbering := true }) 0) = .done .unsat (final, after) ∧
      (∀ values, ¬ final.Holds values) ∧
      ∃ values, Holds values { numVars := 4, clauses := [[3, 4], [3, -4]], trail := [-2] } := by
  obtain ⟨status, final, after, ended, checked⟩ := exists_of_exchangeTrial false
    ({ numVars := 4, clauses := [[3, 4], [3, -4]], trail := [-2] },
      ofVars ({ Settings.bare {} with renumbering := true }) 0)
    (fun status final _ => decide (status = .unsat ∧ final.inconsistent = true)) (by decide +kernel)
  obtain ⟨rfl, closed⟩ := of_decide_eq_true checked
  have satisfied : SatisfiedBy [-2, 3, 4] { numVars := 4, clauses := [[3, 4], [3, -4]], trail := [-2] } := by
    decide
  exact ⟨final, after, ended, fun values holds => absurd (closed.symm.trans holds.isOpen) (by decide),
    _, satisfied.holds⟩

end SearchSolver

end CnfSimplifier
