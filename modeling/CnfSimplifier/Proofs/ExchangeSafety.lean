import CnfSimplifier.Proofs.CallSafety
import CnfSimplifier.Proofs.IdleTools
import CnfSimplifier.Proofs.Upright
import Mathlib.Data.Finset.Card

/-!
# Exchanges that can lack nothing but names

The small solver always answers: a pass of its propagation that finds something takes a
literal of a clause that was not on the trail, and there are no more of them than the fuel
allows for. What is read from a solver is checked against the variables that there are, the
clauses that are given up are listed where they are to be taken out, and the rest of an
exchange is a run. So an exchange, like a call, can lack nothing but names.
-/
namespace CnfSimplifier

/-! ## The small solver -/

namespace SearchSolver

variable {solver : SearchSolver} {admitted : Breakdown → Prop}

/-- The literals of clauses that are not on the trail. -/
def unfound (solver : SearchSolver) : Finset Int :=
  solver.clauses.flatten.toFinset \ solver.trail.toFinset

/-- A pass that finds something takes it from what was not found. -/
theorem propagatePass_finishes {pending : List (List Int)} {found : Bool}
    (part : ∀ clause ∈ pending, clause ∈ solver.clauses) :
    (propagatePass pending found).Finishes solver (fun answer after =>
      after.clauses = solver.clauses ∧ after.unfound ⊆ solver.unfound ∧
        (answer = true → found = true ∨ after.unfound ⊂ solver.unfound)) fun _ _ => True := by
  induction pending generalizing solver found with
  | nil => exact .pure ⟨rfl, Finset.Subset.refl _, .inl⟩
  | cons clause rest ih =>
    obtain ⟨inside, partRest⟩ := List.forall_mem_cons.1 part
    unfold propagatePass
    refine .step rfl ?_
    dsimp only
    split
    · exact ih partRest
    next unsatisfied =>
    split
    next => exact .step rfl (.fail trivial)
    next literal single =>
      have isLeft : literal ∈ clause.filter fun l => !solver.trail.contains (-l) :=
        single ▸ List.mem_cons_self
      have member : literal ∈ clause := (List.mem_filter.1 isLeft).1
      have absent : literal ∉ solver.trail := by
        intro isThere
        exact unsatisfied (List.any_eq_true.2 ⟨literal, member, by simpa using isThere⟩)
      let middle := { solver with trail := solver.trail ++ [literal] }
      have fewer : middle.unfound ⊂ solver.unfound := by
        refine (Finset.ssubset_iff_of_subset ?_).2 ⟨literal, ?_, ?_⟩
        · exact Finset.sdiff_subset_sdiff (Finset.Subset.refl _) (by simp [middle])
        · simp only [unfound, Finset.mem_sdiff, List.mem_toFinset]
          exact ⟨List.mem_flatten.2 ⟨clause, inside, member⟩, absent⟩
        · simp [unfound, middle]
      refine .step rfl ((@ih middle true partRest).imp ?_ fun _ _ => id)
      rintro answer after ⟨clauses, less, _⟩
      exact ⟨clauses, Finset.Subset.trans less fewer.subset,
        fun _ => .inr (Finset.ssubset_of_subset_of_ssubset less fewer)⟩
    next => exact ih partRest

/-- Passes come to an end within the fuel for what is not found yet. -/
theorem safe_propagateLoop {fuel : Nat} (enough : solver.unfound.card < fuel) :
    (propagateLoop fuel).Safe admitted solver := by
  induction fuel generalizing solver with
  | zero => exact absurd enough (Nat.not_lt_zero _)
  | succ fuel ih =>
    have pass := @propagatePass_finishes solver solver.clauses false fun _ => id
    unfold propagateLoop
    refine .step rfl (.bind (fun why stuck => (pass.safe why stuck).elim) pass.ends ?_)
    rintro found middle ⟨clauses, _, finds⟩
    cases found with
    | false => exact .pure
    | true =>
      have fewer := (finds rfl).resolve_left Bool.false_ne_true
      exact ih (by have := Finset.card_lt_card fewer; omega)

theorem safe_propagate : propagate.Safe admitted solver := by
  refine .step rfl (safe_propagateLoop ?_)
  have few : solver.unfound.card ≤ solver.clauses.flatten.toFinset.card :=
    Finset.card_le_card Finset.sdiff_subset
  have all := List.toFinset_card_le solver.clauses.flatten
  omega

theorem safe_assign {literal : Int} : (assign literal).Safe admitted solver := by
  unfold assign
  refine .step rfl (.step rfl ?_)
  split
  · exact .step rfl .fail
  split
  · exact .pure
  · exact .of_done rfl

theorem safe_addClause {clause : List Int} : (addClause clause).Safe admitted solver := by
  unfold addClause
  split
  · exact .step rfl .fail
  · exact .of_done rfl

theorem safe_giveAll (clauses : List (List Int)) :
    (Solver.giveAll clauses : Run SearchSolver Unit).Safe admitted solver := by
  induction clauses generalizing solver with
  | nil => exact .pure
  | cons clause rest ih => exact .bind safe_addClause .trivial fun _ _ _ => ih

/-- The solver takes all that is given. -/
theorem safe_giveExported (clauses : List (List Int)) :
    (Solver.giveExported clauses : Run SearchSolver Unit).Safe admitted solver := by
  induction clauses generalizing solver with
  | nil => exact .pure
  | cons clause rest ih =>
    unfold Solver.giveExported
    split
    · exact .bind safe_assign .trivial fun _ _ _ => ih
    · exact .bind safe_addClause .trivial fun _ _ _ => ih

theorem safe_suggestAll (literals : List Int) :
    (Solver.suggestAll literals : Run SearchSolver Unit).Safe admitted solver :=
  .of_done (suggestAll_eq literals solver)

end SearchSolver

/-! ## Work on a part of a pair -/

namespace Run.Meets

variable {σ τ α : Type} {admitted : Breakdown → Prop} {state : σ × τ} {done : α → σ × τ → Prop}
  {failed : Error → σ × τ → Prop}

theorem onFirst {body : Run σ α} (meets : body.Meets admitted state.1
      (fun value after => done value (after, state.2)) fun cause after => failed cause (after, state.2)) :
    (Run.onFirst body).Meets admitted state done failed := .within (onFirst_apply body state) meets

theorem onSecond {body : Run τ α} (meets : body.Meets admitted state.2
      (fun value after => done value (state.1, after)) fun cause after => failed cause (state.1, after)) :
    (Run.onSecond body).Meets admitted state done failed := .within (onSecond_apply body state) meets

end Run.Meets

/-! ## Reading a formula -/

namespace Solver

open Simplifier

variable {before : Simplifier} {records : List Record}

/-- Room can be made for the variables of the solver. -/
theorem reserveExported_fares (number : Nat) (rest : before.AtRest)
    (nonempty : 0 < before.engine.trail.vars.size) {failed : Error → Simplifier → Prop} :
    (reserveExported number).Fares before (fun _ after => after.AtRest ∧
      before.MakesRoom [number] after ∧ number ≤ after.numExported) failed := by
  refine .step rfl ((newVars_fares _ rest nonempty).imp (fun _ after held => ?_) fun _ _ => id)
  have widens : before.Widens (number - before.numExported) after := held.2
  exact ⟨held.1, widens.makesRoom, widens.le_numExported⟩

/-- A literal of a solver can be read as long as there are names for its variables. -/
theorem importLiteral_fares (value : Int) (rest : before.AtRest) (standing : before.Standing records) :
    (importLiteral value).Fares before (fun _ after => after.AtRest) fun _ after => after.AtRest := by
  unfold importLiteral
  split
  · exact .fail rest
  refine (reserveExported_fares _ rest standing.sane.trail.nonempty).bind
    fun _ after ⟨rest, room, numbered⟩ => .step rfl ?_
  have checked : ∀ literal : Literal, literal.var ≤ after.numVars → (do
      checkPresent literal
      return literal : Run Simplifier Literal).Fares after (fun _ after => after.AtRest)
        fun _ after => after.AtRest := by
    intro literal known
    have inside := Trail.lt_of_le_numVars room.nonempty known
    exact (checkPresent_fares rest inside).bind fun _ _ held => .pure held.1
  dsimp only
  split
  next active =>
    split
    · exact .fail rest
    next inner found => exact checked inner (var_ofNumbered? (room.standing standing) active found).2.1
  next inactive =>
    refine checked _ ?_
    rw [← numExported_of_inactive (Bool.eq_false_iff.2 inactive)]
    exact numbered

/-- Root literals are imported, if there is room. -/
theorem importLiterals_fares (values : List Int) (rest : before.AtRest)
    (standing : before.Standing records) :
    (importLiterals values).Fares before (fun _ after => after.AtRest) fun _ after => after.AtRest := by
  induction values generalizing before with
  | nil => exact .pure rest
  | cons value others ih =>
    refine (((importLiteral_fares value rest standing).and_ends (importLiteral_ends value standing)).imp
      (fun _ _ => id) fun _ _ => And.left).bind fun literal middle ⟨rest, imports⟩ => ?_
    exact (ih rest (imports.room.standing standing)).bind fun _ _ rest => .pure rest

/-- Clauses are imported, if there is room. -/
theorem importClauses_fares (lists : List (List Int)) (rest : before.AtRest)
    (standing : before.Standing records) :
    (importClauses lists).Fares before (fun _ after => after.AtRest) fun _ after => after.AtRest := by
  induction lists generalizing before with
  | nil => exact .pure rest
  | cons list others ih =>
    refine (((importLiterals_fares list rest standing).and_ends (importLiterals_ends list standing)).imp
      (fun _ _ => id) fun _ _ => And.left).bind fun literals middle ⟨rest, imports⟩ => ?_
    exact (ih rest (imports.room.standing standing)).bind fun _ _ rest => .pure rest

/-- Root literals and clauses of a solver can be read as long as there are names for their
variables. -/
theorem importAll_fares (root : List Int) (lists : List (List Int)) (rest : before.AtRest)
    (standing : before.Standing records) :
    (do
      let units ← importLiterals root
      let literals ← importClauses lists
      return units.map (fun unit => [unit]) ++ literals :
        Run Simplifier (List (List Literal))).Fares before (fun _ after => after.AtRest)
          fun _ after => after.AtRest := by
  refine (((importLiterals_fares root rest standing).and_ends (importLiterals_ends root standing)).imp
    (fun _ _ => id) fun _ _ => And.left).bind fun units middle ⟨rest, imports⟩ => ?_
  exact (importClauses_fares lists rest (imports.room.standing standing)).bind fun _ _ rest => .pure rest

/-! ## Taking a formula over -/

/-- Storing clauses keeps to a relation that new clauses keep to. -/
theorem tracks_storeAll {relation : Engine → Engine → Prop} [Tolerant relation]
    (inserts : ∀ {engine : Engine} {literals : List Literal} {redundant : Bool},
      (∀ literal ∈ literals, engine.Owns literal) →
        relation engine { engine with arena := (engine.arena.insert literals redundant).2 })
    (clauses : List (List Literal)) : Tracks relation (storeAll clauses) := by
  induction clauses with
  | nil => exact .pure
  | cons clause others ih => exact .bind (Engine.tracks_storeClause inserts) fun _ => ih

/-- Clauses can be stored one after another as long as there are names for them. -/
theorem safe_storeAll {engine : Engine} (clauses : List (List Literal)) (upright : engine.Upright) :
    (storeAll clauses).Safe (· = .outOfSpace) engine := by
  induction clauses generalizing engine with
  | nil => exact .pure
  | cons clause others ih =>
    exact .bind (Engine.safe_storeClause upright.roomy (.inr rfl)) (Engine.keeps_storeClause upright)
      fun _ after kept => ih kept.1

/-- Releasing clauses keeps to every relation. -/
theorem tracks_releaseClauses (relation : Engine → Engine → Prop) [tolerant : Tolerant relation] :
    Tracks relation Engine.releaseClauses :=
  .after Engine.leaves_look fun _ => .bind (.forM fun _ =>
    .after Engine.leaves_clause fun _ => .bind Engine.tracks_updateIndex
      fun _ => Engine.tracks_updateArena fun _ _ => tolerant.removes) fun _ =>
    Engine.tracks_touch

/-- A compaction between calls leaves the simplifier at rest. -/
theorem collectGarbage_fares (rest : before.AtRest) (inStep : before.engine.InStep)
    {failed : Error → Simplifier → Prop} :
    collectGarbage.Fares before (fun _ after => before.Tidies after ∧ after.AtRest) failed := by
  have collects := collectGarbage_poised inStep ⟨rest.spans, rest.idle.current _⟩
  refine .of_returns ((collects.and_ends (collectGarbage_idle rest.idle)).imp ?_)
  rintro _ after ⟨⟨tidies, poised⟩, idle⟩
  have goes := tidies.goes inStep
  have removed : after.engine.trail.Removed = before.engine.trail.Removed :=
    congrArg Picture.removed tidies.picture
  exact ⟨tidies, idle, poised.spans, goes.inStep.trail.atRoot, goes.orderly rest.trail.orderly,
    removed ▸ rest.trail.kept⟩

variable {σ : Type} {solver : σ}

/-- The clauses can be given up for others. -/
theorem replace_fares (clauses : List (List Literal)) (rest : before.AtRest)
    (standing : before.Standing records) :
    (do
      (Engine.releaseClauses : Run Simplifier Unit)
      Simplifier.collectGarbage
      (storeAll clauses : Run Simplifier Unit) : Run (σ × Simplifier) Unit).Fares (solver, before)
      (fun _ after => after.2.AtRest) fun _ after => after.2.AtRest := by
  obtain ⟨_, _, released, _⟩ := Engine.releaseClauses_returns standing.sane.toInStep
  have releases : (liftM Engine.releaseClauses : Run Simplifier Unit).Fares before _ _ :=
    rest.meets_onEngine (.of_done released) (tracks_releaseClauses _) (tracks_releaseClauses _)
  have gaveUp : (liftM Engine.releaseClauses : Run Simplifier Unit).Ends before _ fun _ _ => False :=
    releaseClauses_ends standing
  refine .seq (.onSecond ((releases.and_ends gaveUp).imp ?_ fun _ _ => And.left))
  rintro _ empty ⟨rest, refills, _⟩
  have standing := refills.standing standing
  refine .seq (.onSecond ((collectGarbage_fares rest standing.sane.toInStep).imp ?_ fun _ _ => id))
  rintro _ tidied ⟨tidies, rest⟩
  have standing := (tidies.refills standing).standing standing
  have upright := @Engine.Sound.upright _ .all standing.sound standing.sane.clean
  exact .onSecond (rest.meets_onEngine (safe_storeAll clauses upright) (tracks_storeAll .of_insert _)
    (tracks_storeAll (fun _ => .of_trail rfl) _))

/-- A notice can always be given. -/
theorem tell_fares {notice : Notice} (rest : before.AtRest)
    {failed : Error → σ × Simplifier → Prop} :
    (liftM (liftM (Engine.tell notice) : Run Simplifier Unit) : Run (σ × Simplifier) Unit).Fares
      (solver, before) (fun _ after => after.2.AtRest ∧ after.1 = solver) failed :=
  .onSecond (.of_done rfl ⟨⟨rest.idle, rest.spans.of_aside rfl rfl, rest.trail⟩, rfl⟩)

theorem conclude_fares (cause : Error) (rest : before.AtRest) :
    (conclude σ cause).Fares (solver, before) (fun _ after => after.2.AtRest)
      fun _ after => after.2.AtRest :=
  .onSecond (rest.conclude_fares (.error cause))

end Solver

/-! ## Exchanges with the small solver -/

namespace SearchSolver

open Simplifier Solver

variable {solver : SearchSolver} {before : Simplifier} {records : List Record}
  {state : SearchSolver × Simplifier}

/-- The formula of a solver can be taken over as long as there are names for its clauses and
variables. -/
theorem takeOver_fares (rest : before.AtRest) (standing : before.Standing records) :
    (takeOver SearchSolver).Fares (solver, before) (fun _ after => after.2.AtRest)
      fun _ after => after.2.AtRest := by
  unfold takeOver
  refine .step rfl (.seq (.onSecond ((reserveExported_fares _ rest standing.sane.trail.nonempty).imp
    ?_ fun _ _ => id)))
  rintro _ reserved ⟨rest, room, _⟩
  have standing := room.standing standing
  have imports := (importAll_fares (Solver.rootLiterals solver) solver.clauses rest standing).and_ends
    (importAll_ends (Solver.rootLiterals solver) solver.clauses standing)
  refine .step rfl (.seq (.onSecond (.attempt (imports.imp ?_ ?_))))
  · rintro clauses middle ⟨rest, imported⟩
    exact replace_fares clauses rest (imported.room.standing standing)
  · rintro cause middle ⟨rest, _⟩
    refine (tell_fares rest).bind ?_
    rintro _ ⟨told, middle⟩ ⟨rest, rfl⟩
    refine .seq (.onFirst ⟨Run.Ends.trivial.imp (fun _ _ _ => ?_) fun _ _ _ => rest, safe_giveAll _⟩)
    exact .fail rest

/-- The formula can always be handed back, or the solver refutes it. -/
theorem handBack_fares : (handBack SearchSolver).Fares state (fun _ after => after.2 = state.2)
    fun _ after => after.2 = state.2 := by
  have asks : ∀ {body : Run SearchSolver Unit} {solver : SearchSolver},
      body.Safe (· = .outOfSpace) solver → (ask body).Fares (solver, state.2)
        (fun _ after => after.2 = state.2) fun _ after => after.2 = state.2 :=
    fun safe => .onFirst ⟨Run.Ends.trivial.imp (fun _ _ _ => rfl) fun _ _ _ => rfl, safe⟩
  obtain ⟨solver, simplifier⟩ := state
  unfold handBack
  refine .step rfl ((asks (safe_giveExported _)).bind ?_)
  rintro _ ⟨given, _⟩ rfl
  refine (asks safe_propagate).bind ?_
  rintro _ ⟨propagated, _⟩ rfl
  exact asks (safe_suggestAll _)

/-- Whatever the cause is, a formula that is not taken over can be given up. -/
theorem giveUp_fares (cause : Error) (rest : before.AtRest) :
    (giveUp SearchSolver cause).Fares (solver, before) (fun _ after => after.2.AtRest)
      fun _ after => after.2.AtRest := by
  unfold giveUp
  refine (conclude_fares cause rest).bind ?_
  rintro status ⟨_, concluded⟩ rest
  split
  · refine .seq (.attempt (handBack_fares.imp ?_ ?_))
    · rintro _ ⟨_, _⟩ rfl
      exact .pure rest
    · rintro _ ⟨_, _⟩ rfl
      exact (tell_fares rest).bind fun _ _ told => .pure told.1
  · exact .pure rest

/-- A run and the way back lack nothing but room. -/
theorem simplifyAndHandBack_fares {inprocessing : Bool} (rest : before.AtRest)
    (standing : before.Standing records) :
    (simplifyAndHandBack SearchSolver inprocessing).Fares (solver, before)
      (fun _ after => after.2.AtRest) fun _ after => after.2.AtRest := by
  have moves : (run inprocessing).Ends before _ fun _ _ => False := run_moves standing
  refine .seq (.onSecond (((run_rests_fares standing rest).and_ends moves).imp ?_
    fun _ _ impossible => impossible.1.elim))
  rintro status ran ⟨rest, _, _, _, more, standing, _⟩
  -- Room for the variables of the solver, and what the hand-over came to.
  refine .seq (.attempt (handBack_fares.imp ?_ ?_))
  all_goals
    rintro ended ⟨last, _⟩ rfl
    refine .step rfl (.seq (.onSecond ((reserveExported_fares _ rest
      standing.sane.trail.nonempty).imp ?_ fun _ _ => id)))
    rintro _ widened ⟨rest, _⟩
  · exact .pure rest
  · dsimp only
    split
    · exact (conclude_fares _ rest).bind fun _ _ rest => .pure rest
    · exact (tell_fares rest).bind fun _ _ told => .pure told.1

/-- It can always be asked whether the solver has refuted its formula. -/
theorem isRefuted_fares {failed : Error → SearchSolver × Simplifier → Prop} :
    (isRefuted SearchSolver).Fares state (fun _ after => after.2 = state.2) failed := by
  refine ⟨isRefuted_keeps, ?_⟩
  unfold isRefuted
  refine .step rfl ?_
  dsimp only
  split
  · refine .bind (.attempt (.within (Run.onFirst_apply _ _) safe_propagate)) .trivial fun answer _ _ => ?_
    split <;> exact .pure
  · exact .pure

/-- A round trip of a formula can lack nothing but names. -/
theorem roundTrip_fares {inprocessing : Bool} (rest : before.AtRest)
    (standing : before.Standing records) :
    (roundTrip SearchSolver inprocessing).Fares (solver, before) (fun _ after => after.2.AtRest)
      fun _ after => after.2.AtRest := by
  unfold Solver.roundTrip
  refine isRefuted_fares.bind ?_
  rintro refuted ⟨asked, _⟩ rfl
  split
  · exact (conclude_fares _ rest).bind fun _ _ rest => .pure rest
  have takes := (@takeOver_fares asked _ _ rest standing).and_ends (takeOver_ends standing)
  refine .seq (.attempt (takes.imp ?_ ?_))
  · rintro _ ⟨taken, replaced⟩ ⟨rest, clauses, _, replaces⟩
    exact simplifyAndHandBack_fares rest (replaces.passes standing).2
  · rintro cause ⟨last, refused⟩ ⟨rest, _⟩
    exact giveUp_fares cause rest

end SearchSolver

namespace Simplifier

variable {before start final : Simplifier} {records : List Record} {settings : Settings}
  {entries : List Dealt} {α : Type}

/-- A loan of a solver is as safe as what is done with it. -/
theorem lending_fares {solver : SearchSolver} {body : Run (SearchSolver × Simplifier) α}
    {done : α → Simplifier → Prop} {failed : Error → Simplifier → Prop}
    (fares : body.Fares (solver, before) (fun value after => done value after.2)
      fun cause after => failed cause after.2) : (lending solver body).Fares before done failed := by
  have same : lending solver body before = (body (solver, before)).mapState Prod.snd := by
    unfold lending
    cases body (solver, before) <;> rfl
  exact .within same fares

/-- A dealing can lack nothing but names, and it leaves the simplifier at rest. -/
theorem Dealing.perform_fares (dealing : Dealing) (standing : before.Standing records)
    (rest : before.AtRest) :
    dealing.perform.attempt.Fares before (fun _ after => after.AtRest) fun _ _ => False := by
  cases dealing with
  | call asked => exact asked.perform_fares standing rest
  | exchange solver inprocessing =>
    exact .attempt ((lending_fares (SearchSolver.roundTrip_fares rest standing)).bind
      fun _ _ rest => .pure rest)

/-- A simplifier that was set up is at rest. -/
theorem Begun.atRest (begun : Begun settings start) : start.AtRest := by
  cases begun with
  | @formula clauses made small =>
    have fares := addClauses_fares clauses (atRest_ofVars settings _)
      (standing_ofVars settings (numVars_ofClauses_lt small))
    exact fares.ends.done_of_eq made
  | vars made _ => exact made ▸ atRest_ofVars settings _

/-- However dealings follow each other, the simplifier is at rest between them. -/
theorem Dealings.atRest (begun : Begun settings start) (dealings : Dealings start entries final) :
    final.AtRest := by
  induction dealings with
  | nil => exact begun.atRest
  | made dealing earlier ended ih =>
    obtain ⟨records, kept⟩ := earlier.exists_kept begun.fresh
    exact (dealing.perform_fares kept.standing ih).ends.done_of_eq ended

end Simplifier

end CnfSimplifier
