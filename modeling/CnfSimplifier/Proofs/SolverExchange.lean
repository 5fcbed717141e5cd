import CnfSimplifier.Solver
import CnfSimplifier.Proofs.Standing

/-!
# Taking a formula over from a solver

A simplifier gives up its clauses and takes in the root literals and the clauses of a
solver. Its root assignment, its records and its numbering stay. Variables of the
solver come in on demand; if a literal cannot be read nothing is given up.
-/
namespace CnfSimplifier

namespace Run

variable {σ τ α : Type} {state : σ × τ} {done : α → σ × τ → Prop} {failed : Error → σ × τ → Prop}

/-- A part of a pair is worked on. -/
theorem onFirst_apply (body : Run σ α) (state : σ × τ) :
    Run.onFirst body state = (body state.1).mapState fun after => (after, state.2) := by
  obtain ⟨first, second⟩ := state
  unfold Run.onFirst
  dsimp only
  cases body first <;> rfl

theorem onSecond_apply (body : Run τ α) (state : σ × τ) :
    Run.onSecond body state = (body state.2).mapState fun after => (state.1, after) := by
  obtain ⟨first, second⟩ := state
  unfold Run.onSecond
  dsimp only
  cases body second <;> rfl

/-- Work on the first part of a state ends as it does there. -/
theorem Ends.onFirst {body : Run σ α} (ends : body.Ends state.1
      (fun value after => done value (after, state.2)) fun cause after => failed cause (after, state.2)) :
    (Run.onFirst body).Ends state done failed := .within (onFirst_apply body state) ends

/-- Work on the second part ends as it does there. -/
theorem Ends.onSecond {body : Run τ α} (ends : body.Ends state.2
      (fun value after => done value (state.1, after)) fun cause after => failed cause (state.1, after)) :
    (Run.onSecond body).Ends state done failed := .within (onSecond_apply body state) ends

end Run

namespace Simplifier

variable {before middle after simplifier : Simplifier} {records : List Record}
  {failed : Error → Simplifier → Prop}

/-- The formula may be another one; variables, records and numbering stay. -/
structure Refills (before after : Simplifier) : Prop where
  numVars : after.numVars = before.numVars
  frozen : after.engine.trail.Frozen = before.engine.trail.Frozen
  removed : after.engine.trail.Removed = before.engine.trail.Removed
  records : after.engine.records = before.engine.records
  settings : after.engine.settings = before.engine.settings
  numbering : after.numbering = before.numbering
  covered : before.Covered → after.Covered
  standing : ∀ {records}, before.Standing records → after.Standing records

namespace Refills

theorem refl : simplifier.Refills simplifier := ⟨rfl, rfl, rfl, rfl, rfl, rfl, id, id⟩

theorem trans (first : before.Refills middle) (second : middle.Refills after) :
    before.Refills after where
  numVars := second.numVars.trans first.numVars
  frozen := second.frozen.trans first.frozen
  removed := second.removed.trans first.removed
  records := second.records.trans first.records
  settings := second.settings.trans first.settings
  numbering := second.numbering.trans first.numbering
  covered covered := second.covered (first.covered covered)
  standing standing := second.standing (first.standing standing)

end Refills

/-- A notice leaves the formula. -/
theorem refills_tell (notice : Notice) : simplifier.Refills { simplifier with
    engine := { simplifier.engine with notices := simplifier.engine.notices.push notice } } :=
  ⟨rfl, rfl, rfl, rfl, rfl, rfl, id,
    fun standing => standing.of_same rfl rfl rfl rfl rfl rfl rfl rfl rfl⟩

/-! ## Giving up the clauses -/

/-- All clauses are given up. -/
theorem releaseClauses_ends (standing : simplifier.Standing records) :
    (liftM Engine.releaseClauses : Run Simplifier Unit).Ends simplifier (fun _ after =>
      simplifier.Refills after ∧ after.engine.unsat = simplifier.engine.unsat ∧
      after.engine.picture.clauses = 0 ∧
      after.engine.picture.root = simplifier.engine.picture.root) failed := by
  refine ends_onEngine ((Engine.releaseClauses_ends standing.sane.toInStep).imp ?_
    fun _ _ impossible => impossible.elim)
  rintro _ engine ⟨releases, empty⟩
  have numVars : engine.numVars = simplifier.engine.numVars := by
    unfold Engine.numVars
    rw [releases.trail]
  refine ⟨⟨numVars, ?_, ?_, releases.records, releases.settings, rfl,
    fun covered => covered.of_part rfl ?_, fun standing => ?_⟩, releases.unsat, empty, ?_⟩
  · rw [releases.trail]
  · rw [releases.trail]
  · have root : engine.picture.root = simplifier.engine.picture.root :=
      congrArg Trail.facts releases.trail
    rintro clause (stored | ⟨literal, atRoot, rfl⟩)
    · change clause ∈ engine.arena.contents at stored
      rw [empty] at stored
      exact absurd stored (Multiset.notMem_zero clause)
    · exact Picture.mem_formula_of_root (root ▸ atRoot)
  · let _ : Realm := .all
    have root : engine.picture.root = simplifier.engine.picture.root :=
      congrArg Trail.facts releases.trail
    refine ⟨⟨releases.inStep, ?_, releases.poisoned.trans standing.sane.intact, ?_,
      releases.dirty.trans standing.sane.clean⟩, fun isOpen => ?_, fun slot clause found alive => ?_,
      releases.records.trans standing.stack, ?_⟩
    · obtain ⟨_, known, distinct⟩ := standing.sane.formed
      refine ⟨fun clause member => ?_, fun literal atRoot => ?_, root ▸ distinct⟩
      · change clause ∈ engine.arena.contents at member
        rw [empty] at member
        exact absurd member (Multiset.notMem_zero clause)
      · obtain ⟨positive, inRange, kept, has⟩ := known literal (root ▸ atRoot)
        refine ⟨positive, inRange.trans numVars.ge, ?_, has⟩
        change ¬ engine.trail.Removed _ ∨ _
        rwa [releases.trail]
    · rw [releases.trail]
      exact standing.sane.accounts
    · obtain ⟨orderly, settles⟩ := standing.settled (releases.unsat ▸ isOpen)
      refine ⟨releases.trail ▸ orderly, ?_, ?_⟩
      · rw [root, releases.applied]
        exact settles.inTrail
      · rintro literal _ ⟨clause, member, _⟩
        change clause ∈ engine.arena.contents at member
        rw [empty] at member
        exact absurd member (Multiset.notMem_zero clause)
    · have stored : clause.literals ∈ engine.arena.contents :=
        Arena.mem_contents.2 ⟨slot, clause, found, alive, rfl⟩
      rw [empty] at stored
      exact absurd stored (Multiset.notMem_zero _)
    · change _ → _ ∧ ∀ name ∈ _, 0 < name ∧ name ≤ engine.numVars
      rw [numVars]
      exact standing.numbered
  · exact congrArg Trail.facts releases.trail

/-- A compaction leaves the formula. -/
theorem Tidies.refills (tidies : before.Tidies after) (standing : before.Standing records) :
    before.Refills after := by
  have sane := standing.sane
  have goes := tidies.goes sane.toInStep
  have clauses := congrArg Picture.clauses tidies.picture
  have root := congrArg Picture.root tidies.picture
  have numVars : after.numVars = before.numVars := congrArg Picture.numVars tidies.picture
  have removed : after.engine.trail.Removed = before.engine.trail.Removed :=
    congrArg Picture.removed tidies.picture
  have records : after.engine.records = before.engine.records :=
    congrArg Picture.records tidies.picture
  refine ⟨numVars, congrArg Picture.frozen tidies.picture, removed, records, goes.settings,
    tidies.numbering, fun covered => covered.of_part tidies.numbering ?_, fun standing => ?_⟩
  · unfold Picture.formula
    rw [clauses, root]
  refine ⟨⟨goes.inStep, sane.formed.of_same clauses root numVars.ge removed,
    goes.poisoned.trans sane.intact, goes.accounts sane.accounts, goes.clean sane.clean⟩,
    fun isOpen => ?_, tidies.irredundant standing.irredundant, records.trans standing.stack, ?_⟩
  · let _ : Realm := .all
    exact (tidies.leads sane.toInStep).settled (standing.settled (goes.unsat ▸ isOpen))
  · rw [tidies.numbering, numVars]
    exact standing.numbered

/-! ## Taking clauses in -/

/-- Clauses were taken in one after another. -/
structure Fills (before : Simplifier) (clauses : List (List Literal)) (after : Simplifier) : Prop
    extends Refills before after where
  unsat : after.engine.unsat = before.engine.unsat
  holds : ∀ values, after.engine.picture.Holds values ↔
    before.engine.picture.Holds values ∧ ∀ clause ∈ clauses, ClauseHolds values clause

/-- The simplifier after a clause was stored. -/
theorem fills_of_stores {clause : List Literal} {engine : Engine}
    (present : ∀ literal ∈ clause, 0 < literal.var ∧ literal.var ≤ simplifier.numVars ∧
      ¬ simplifier.engine.trail.Removed literal.var)
    (numbered : ∀ literal ∈ clause, simplifier.Numbered literal.var)
    (stores : simplifier.engine.Stores clause engine) :
    simplifier.Fills [clause] { simplifier with engine := engine } where
  numVars := stores.flags.numVars
  frozen := stores.flags.frozen
  removed := stores.flags.removed
  records := stores.records
  settings := stores.settings
  numbering := rfl
  covered := by
    rintro covered name positive ⟨stored, member, literal, inside, rfl⟩
    rcases stores.receives.mem_formula member with old | part
    · exact covered _ positive ⟨stored, old, literal, inside, rfl⟩
    · exact numbered literal (part inside)
  standing standing := standing.stores (fun literal member =>
    let ⟨positive, inRange, kept⟩ := present literal member
    ⟨positive, inRange, .inl kept, trivial⟩) stores rfl
  unsat := stores.unsat
  holds values := by
    rw [List.forall_mem_singleton]
    exact stores.receives.holds_iff fun literal member => (present literal member).1

/-- All clauses are stored, or one of them refutes the formula or has a literal of no
variable. -/
theorem storeAll_ends {clauses : List (List Literal)} (standing : simplifier.Standing records)
    (present : ∀ clause ∈ clauses, ∀ literal ∈ clause, literal.var ≤ simplifier.numVars ∧
      ¬ simplifier.engine.trail.Removed literal.var ∧ simplifier.Numbered literal.var) :
    (Solver.storeAll clauses).Ends simplifier.engine
      (fun _ engine => simplifier.Fills clauses { simplifier with engine := engine })
      fun cause engine => simplifier.Refills { simplifier with engine := engine } ∧
        engine.unsat = simplifier.engine.unsat ∧
        (cause = .outOfRange ∧ (∃ clause ∈ clauses, ∃ literal ∈ clause, literal.var = 0) ∨
          cause.isUnsat = true ∧ ∀ values, simplifier.engine.picture.Holds values →
            ¬ ∀ clause ∈ clauses, ClauseHolds values clause) := by
  induction clauses generalizing simplifier with
  | nil => exact .pure ⟨.refl, rfl, by simp⟩
  | cons clause rest ih =>
    obtain ⟨presentFirst, presentRest⟩ := List.forall_mem_cons.1 present
    unfold Solver.storeAll
    by_cases overVars : ∀ literal ∈ clause, 0 < literal.var
    · have inside : ∀ literal ∈ clause, 0 < literal.var ∧ literal.var ≤ simplifier.numVars ∧
          ¬ simplifier.engine.trail.Removed literal.var :=
        fun literal member =>
          let ⟨inRange, kept, _⟩ := presentFirst literal member
          ⟨overVars literal member, inRange, kept⟩
      refine .seq ((Engine.importClause_ends standing.sane.toInStep inside).imp
        (fun _ engine stores => ?_) ?_)
      · have first := fills_of_stores inside (fun literal member =>
          (presentFirst literal member).2.2) stores
        refine (ih (first.standing standing) ?_).imp (fun _ last fills => ?_) ?_
        · unfold Numbered
          rw [first.numVars, first.removed, first.numbering]
          exact presentRest
        · refine ⟨first.toRefills.trans fills.toRefills, fills.unsat.trans first.unsat,
            fun values => ?_⟩
          rw [fills.holds, first.holds, List.forall_mem_singleton, List.forall_mem_cons, and_assoc]
        · rintro cause last ⟨refills, unsat, reason⟩
          refine ⟨first.toRefills.trans refills, unsat.trans first.unsat, reason.imp ?_ ?_⟩
          · exact fun ⟨same, other, member, zero⟩ =>
              ⟨same, other, List.mem_cons_of_mem clause member, zero⟩
          · rintro ⟨isUnsat, noModel⟩
            refine ⟨isUnsat, fun values holds all => ?_⟩
            obtain ⟨holdsFirst, holdsRest⟩ := List.forall_mem_cons.1 all
            exact noModel values ((first.holds values).2 ⟨holds, by simpa using holdsFirst⟩)
              holdsRest
      · rintro cause _ ⟨rfl, isUnsat, noModel⟩
        refine ⟨.refl, rfl, .inr ⟨isUnsat, fun values holds all => ?_⟩⟩
        exact noModel values holds (List.forall_mem_cons.1 all).1
    · refine .of_failed (Run.bind_of_failed (importClause_of_not_present overVars)) ?_
      simp only [not_forall, Nat.not_lt, Nat.le_zero] at overVars
      obtain ⟨literal, member, zero⟩ := overVars
      exact ⟨.refl, rfl, .inl ⟨rfl, clause, List.mem_cons_self, literal, member, zero⟩⟩

/-! ## Reading literals -/

/-- Variables came in, as far as numbers were asked for. -/
structure MakesRoom (before : Simplifier) (numbers : List Nat) (after : Simplifier) : Prop where
  widens : ∃ count, before.Widens count after
  bounded : before.numbering.isActive = false → ∀ bound, before.numVars ≤ bound →
    (∀ number ∈ numbers, number ≤ bound) → after.numVars ≤ bound

namespace MakesRoom

variable {numbers others : List Nat}

theorem refl (nonempty : 0 < simplifier.engine.trail.vars.size) :
    simplifier.MakesRoom numbers simplifier :=
  ⟨⟨0, .refl nonempty⟩, fun _ _ small _ => small⟩

theorem trans (first : before.MakesRoom numbers middle) (second : middle.MakesRoom others after) :
    before.MakesRoom (numbers ++ others) after := by
  obtain ⟨⟨count, widens⟩, bounded⟩ := first
  obtain ⟨⟨more, further⟩, boundedMore⟩ := second
  refine ⟨⟨_, widens.trans further⟩, fun inactive bound small all => ?_⟩
  obtain ⟨allFirst, allSecond⟩ := List.forall_mem_append.1 all
  exact boundedMore (widens.active.trans inactive) bound (bounded inactive bound small allFirst)
    allSecond

theorem mono (room : before.MakesRoom numbers after) (part : numbers ⊆ others) :
    before.MakesRoom others after :=
  ⟨room.widens, fun inactive bound small all => room.bounded inactive bound small fun number member =>
    all number (part member)⟩

theorem nonempty (room : before.MakesRoom numbers after) : 0 < after.engine.trail.vars.size :=
  let ⟨_, widens⟩ := room.widens
  widens.nonempty

theorem active (room : before.MakesRoom numbers after) :
    after.numbering.isActive = before.numbering.isActive :=
  let ⟨_, widens⟩ := room.widens
  widens.active

theorem le_numVars (room : before.MakesRoom numbers after) : before.numVars ≤ after.numVars :=
  let ⟨_, widens⟩ := room.widens
  widens.le_numVars

theorem removed (room : before.MakesRoom numbers after) :
    after.engine.trail.Removed = before.engine.trail.Removed :=
  let ⟨_, widens⟩ := room.widens
  widens.removed

/-- A simplifier with more room is standing. -/
theorem standing (room : before.MakesRoom numbers after) (standing : before.Standing records) :
    after.Standing records :=
  let ⟨_, widens⟩ := room.widens
  widens.standing standing

/-- A variable that is there, and has a number, stays there and keeps it. -/
theorem present {name : Nat} (room : before.MakesRoom numbers after) (present : name ≤ before.numVars ∧
    ¬ before.engine.trail.Removed name ∧ before.Numbered name) : name ≤ after.numVars ∧
    ¬ after.engine.trail.Removed name ∧ after.Numbered name := by
  obtain ⟨inRange, kept, numbered⟩ := present
  obtain ⟨_, widens⟩ := room.widens
  refine ⟨inRange.trans room.le_numVars, room.removed ▸ kept, fun active => ?_⟩
  have wasActive := room.active.symm.trans active
  rw [widens.names wasActive]
  exact List.mem_append_left _ (numbered wasActive)

end MakesRoom

theorem numExported_of_inactive (inactive : simplifier.numbering.isActive = false) :
    simplifier.numExported = simplifier.numVars := by
  unfold numExported
  rw [inactive, if_neg Bool.false_ne_true]

/-- New variables have numbers. -/
theorem Widens.numExported {count : Nat} (widens : before.Widens count after) :
    after.numExported = before.numExported + count := by
  cases active : before.numbering.isActive with
  | false =>
    rw [numExported_of_inactive active, numExported_of_inactive (widens.active.trans active),
      widens.numVars]
  | true =>
    unfold Simplifier.numExported
    rw [active, widens.active, active, if_pos rfl, if_pos rfl]
    have lengths := congrArg List.length (widens.names active)
    rw [List.length_append, List.length_range'] at lengths
    exact lengths

/-- No exported number is lost. -/
theorem MakesRoom.numExported_le {numbers : List Nat} (room : before.MakesRoom numbers after) :
    before.numExported ≤ after.numExported := by
  obtain ⟨_, widens⟩ := room.widens
  rw [widens.numExported]
  exact Nat.le_add_right _ _

theorem Refills.numExported (refills : before.Refills after) :
    after.numExported = before.numExported := by
  unfold Simplifier.numExported
  rw [refills.numbering, refills.numVars]

/-- As many variables come in as are missing. -/
theorem reserveExported_widens (number : Nat) (nonempty : 0 < simplifier.engine.trail.vars.size) :
    (reserveExported number).Ends simplifier
      (fun _ after => simplifier.Widens (number - simplifier.numExported) after) failed := by
  unfold reserveExported
  exact .step rfl ((newVars_widens _ nonempty).imp (fun _ after widens => widens)
    fun _ _ held => held)

theorem Widens.makesRoom {number : Nat}
    (widens : before.Widens (number - before.numExported) after) :
    before.MakesRoom [number] after := by
  refine ⟨⟨_, widens⟩, fun inactive bound small all => ?_⟩
  have fits := List.forall_mem_singleton.1 all
  rw [widens.numVars, numExported_of_inactive inactive]
  omega

theorem Widens.le_numExported {number : Nat}
    (widens : before.Widens (number - before.numExported) after) : number ≤ after.numExported := by
  rw [widens.numExported]
  omega

/-- Variables are reserved up to an exported number. -/
theorem reserveExported_ends (number : Nat) (nonempty : 0 < simplifier.engine.trail.vars.size) :
    (reserveExported number).Ends simplifier
      (fun _ after => simplifier.MakesRoom [number] after) failed :=
  (reserveExported_widens number nonempty).imp (fun _ _ widens => widens.makesRoom)
    fun _ _ held => held

end Simplifier

namespace Solver

variable {simplifier : Simplifier} {records : List Record}

/-- An integer that passes for a literal although it has no variable. Only without a
numbering in effect it is not noticed. -/
def Unnamed (simplifier : Simplifier) (values : List Int) : Prop :=
  simplifier.numbering.isActive = false ∧
    ∃ value ∈ values, value ≠ 0 ∧ (Literal.ofInt value).var = 0

theorem Unnamed.mono {before after : Simplifier} {values others : List Int}
    (unnamed : Unnamed after values) (active : after.numbering.isActive = before.numbering.isActive)
    (part : values ⊆ others) : Unnamed before others := by
  obtain ⟨inactive, value, member, odd⟩ := unnamed
  exact ⟨active ▸ inactive, value, part member, odd⟩

/-- Literals of a solver were read: their variables are there. -/
structure Imports (before : Simplifier) (values : List Int) (literals : List Literal)
    (after : Simplifier) : Prop where
  room : before.MakesRoom (values.map fun value => (Literal.ofInt value).var) after
  present : ∀ literal ∈ literals, literal.var ≤ after.numVars ∧
    ¬ after.engine.trail.Removed literal.var ∧ after.Numbered literal.var
  named : ∀ literal ∈ literals, literal.var = 0 → Unnamed before values
  /-- Without a numbering in effect integers stand for themselves. -/
  plain : before.numbering.isActive = false → literals = values.map Literal.ofInt

/-- The variable of a number is there and has one. -/
theorem var_ofNumbered? (standing : simplifier.Standing records) {literal inner : Literal}
    (active : simplifier.numbering.isActive = true)
    (found : simplifier.numbering.ofNumbered? literal = some inner) :
    0 < inner.var ∧ inner.var ≤ simplifier.numVars ∧ simplifier.Numbered inner.var := by
  obtain ⟨name, isName, rfl⟩ := Option.map_eq_some_iff.1 found
  unfold Numbering.varOf? at isName
  split at isName
  · cases isName
  next place _ =>
    obtain ⟨atPlace, positive⟩ := Option.filter_eq_some_iff.1 isName
    have inNames : name ∈ simplifier.numbering.names.toList :=
      Array.mem_toList_iff.2 (Array.mem_of_getElem? atPlace)
    have small := ((standing.numbered active).2 name inNames).2
    have bound := standing.sane.trail.small
    have present : 0 < name := by simpa using positive
    have isName : (Literal.ofVar name literal.isPositive).var = name := by
      change name ≤ simplifier.engine.trail.vars.size - 1 at small
      exact Literal.var_ofVar present (by simp only [UInt32.size]; omega)
    rw [isName]
    exact ⟨present, small, fun _ => inNames⟩

/-- A root literal is imported under a name of its own. -/
theorem importLiteral_ends (value : Int) (standing : simplifier.Standing records) :
    (importLiteral value).Ends simplifier
      (fun literal after => Imports simplifier [value] [literal] after)
      fun cause after => (cause = .invalidLiteral ∨ cause = .outOfRange) ∧
        simplifier.MakesRoom [(Literal.ofInt value).var] after := by
  have nonempty := standing.sane.trail.nonempty
  unfold importLiteral
  split
  next => exact .fail ⟨.inl rfl, .refl nonempty⟩
  next nonzero =>
    refine (Simplifier.reserveExported_ends _ nonempty).bind fun _ after room => .step rfl ?_
    have checked : ∀ literal, (after.numbering.isActive = false → literal = Literal.ofInt value) →
        (after.numbering.isActive = true → 0 < literal.var) → after.Numbered literal.var →
        (do
          Simplifier.checkPresent literal
          return literal : Run Simplifier Literal).Ends after
          (fun literal after => Imports simplifier [value] [literal] after)
          fun cause after => (cause = .invalidLiteral ∨ cause = .outOfRange) ∧
            simplifier.MakesRoom [(Literal.ofInt value).var] after := by
      intro literal plain named numbered
      refine .seq (Simplifier.checkPresent_ends (fun inside kept => .pure ?_) ⟨.inl rfl, room⟩)
      refine ⟨room, List.forall_mem_singleton.2 ⟨?_, kept, numbered⟩,
        List.forall_mem_singleton.2 fun zero => ?_, fun inactive => ?_⟩
      · change _ ≤ after.engine.trail.vars.size - 1
        omega
      · have inactive : after.numbering.isActive = false :=
          Bool.eq_false_iff.2 fun active => absurd (named active) (by omega)
        exact ⟨room.active ▸ inactive, value, List.mem_cons_self, nonzero,
          plain inactive ▸ zero⟩
      · rw [plain (room.active.trans inactive)]
        rfl
    dsimp only
    split
    next active =>
      split
      next => exact .fail ⟨.inr rfl, room⟩
      next inner found =>
        obtain ⟨positive, _, numbered⟩ := var_ofNumbered? (room.standing standing) active found
        exact checked inner (fun inactive => absurd (active.symm.trans inactive) (by decide))
          (fun _ => positive) numbered
    next inactive =>
      exact checked _ (fun _ => rfl) (fun active => absurd active inactive)
        fun active => absurd active inactive

/-- Literals are imported one after the other. -/
theorem importLiterals_ends (values : List Int) (standing : simplifier.Standing records) :
    (importLiterals values).Ends simplifier
      (fun literals after => Imports simplifier values literals after)
      fun cause after => (cause = .invalidLiteral ∨ cause = .outOfRange) ∧
        simplifier.MakesRoom (values.map fun value => (Literal.ofInt value).var) after := by
  induction values generalizing simplifier with
  | nil => exact .pure ⟨.refl standing.sane.trail.nonempty, by simp, by simp, fun _ => rfl⟩
  | cons value rest ih =>
    unfold importLiterals
    refine ((importLiteral_ends value standing).imp (fun _ _ held => held)
      fun cause after ⟨harmless, room⟩ => ⟨harmless, room.mono (by simp)⟩).bind ?_
    intro literal middle first
    refine ((ih (first.room.standing standing)).imp (fun _ _ held => held)
      fun cause after ⟨harmless, room⟩ => ⟨harmless, first.room.trans room⟩).bind ?_
    intro others after second
    refine .pure ⟨first.room.trans second.room, List.forall_mem_cons.2 ⟨?_, second.present⟩,
      List.forall_mem_cons.2 ⟨fun zero => ?_, fun literal member zero => ?_⟩, fun inactive => ?_⟩
    rotate_left
    · exact (first.named literal List.mem_cons_self zero).mono rfl (by simp)
    · exact (second.named literal member zero).mono first.room.active (by simp)
    rotate_left
    · exact second.room.present (first.present literal List.mem_cons_self)
    · rw [second.plain (first.room.active.trans inactive), List.map_cons,
        ← (List.cons.inj (first.plain inactive)).1]

/-- The numbers that some clauses of integers mention. -/
def numbersIn (clauses : List (List Int)) : List Nat :=
  clauses.flatten.map fun value => (Literal.ofInt value).var

/-- Clauses of a solver were read. -/
structure ImportsAll (before : Simplifier) (lists : List (List Int))
    (clauses : List (List Literal)) (after : Simplifier) : Prop where
  room : before.MakesRoom (numbersIn lists) after
  present : ∀ clause ∈ clauses, ∀ literal ∈ clause, literal.var ≤ after.numVars ∧
    ¬ after.engine.trail.Removed literal.var ∧ after.Numbered literal.var
  named : ∀ clause ∈ clauses, ∀ literal ∈ clause, literal.var = 0 → Unnamed before lists.flatten
  plain : before.numbering.isActive = false → clauses = lists.map (List.map Literal.ofInt)

/-- Clauses are imported under the names of their literals. -/
theorem importClauses_ends (lists : List (List Int)) (standing : simplifier.Standing records) :
    (importClauses lists).Ends simplifier
      (fun clauses after => ImportsAll simplifier lists clauses after)
      fun cause after => (cause = .invalidLiteral ∨ cause = .outOfRange) ∧
        simplifier.MakesRoom (numbersIn lists) after := by
  induction lists generalizing simplifier with
  | nil => exact .pure ⟨.refl standing.sane.trail.nonempty, by simp, by simp, fun _ => rfl⟩
  | cons list rest ih =>
    have numbers : numbersIn (list :: rest) =
        (list.map fun value => (Literal.ofInt value).var) ++ numbersIn rest := by
      unfold numbersIn
      rw [List.flatten_cons, List.map_append]
    unfold importClauses
    rw [numbers]
    refine ((importLiterals_ends list standing).imp (fun _ _ held => held)
      fun cause after ⟨harmless, room⟩ => ⟨harmless, room.mono (by simp)⟩).bind ?_
    intro literals middle first
    refine ((ih (first.room.standing standing)).imp (fun _ _ held => held)
      fun cause after ⟨harmless, room⟩ => ⟨harmless, first.room.trans room⟩).bind ?_
    intro others after second
    refine .pure ⟨numbers ▸ first.room.trans second.room,
      List.forall_mem_cons.2 ⟨fun literal member => ?_, second.present⟩,
      List.forall_mem_cons.2 ⟨fun literal member zero => ?_,
        fun clause member literal inside zero => ?_⟩, fun inactive => ?_⟩
    rotate_left
    · exact (first.named literal member zero).mono rfl (by simp)
    · exact (second.named clause member literal inside zero).mono first.room.active (by simp)
    rotate_left
    · exact second.room.present (first.present literal member)
    · rw [second.plain (first.room.active.trans inactive), first.plain inactive]
      rfl

variable {σ : Type} [Solver σ] {state : σ × Simplifier}

/-- What a solver hands over: its root literals as units, and clauses. -/
def handed (solver : σ) (clauses : List (List Int)) : List (List Int) :=
  (Solver.rootLiterals solver).map (fun literal => [literal]) ++ clauses

/-- The formula of a solver took the place of the clauses. -/
structure Replaces (before : Simplifier) (numVars : Nat) (lists : List (List Int))
    (after : Simplifier) : Prop where
  room : ∃ middle, before.MakesRoom (numVars :: numbersIn lists) middle ∧ middle.Refills after
  unsat : after.engine.unsat = before.engine.unsat
  holds : before.numbering.isActive = false → ∀ values, after.engine.picture.Holds values ↔
    (∀ literal ∈ before.engine.picture.root, literal.Holds values) ∧
      ∀ list ∈ lists, ClauseHolds values (list.map Literal.ofInt)

/-- Why a formula was not taken over. -/
inductive Refusal (state : σ × Simplifier) (cause : Error) (after : σ × Simplifier) : Prop
  /-- The solver did not hand its clauses over. -/
  | untaken (ended : Solver.takeClauses state.1 = .failed cause after.1)
  /-- A literal could not be read, and the solver got its clauses back. -/
  | unread {clauses : List (List Int)} {solver : σ}
    (taken : Solver.takeClauses state.1 = .done clauses solver)
    (back : giveAll clauses solver = .failed cause after.1 ∨
      giveAll clauses solver = .done () after.1 ∧ (cause = .invalidLiteral ∨ cause = .outOfRange))
    (arena : after.2.engine.arena = state.2.engine.arena)
    (rootLiterals : after.2.engine.trail.rootLiterals = state.2.engine.trail.rootLiterals)
    (root : after.2.engine.picture.root = state.2.engine.picture.root)
  /-- A clause refuted the formula, or it has a literal of no variable. -/
  | unstored {clauses : List (List Int)} (taken : Solver.takeClauses state.1 = .done clauses after.1)
    (reason : cause = .outOfRange ∧ Unnamed state.2 (handed state.1 clauses).flatten ∨
      cause.isUnsat = true ∧ (state.2.numbering.isActive = false → ∀ values,
        (∀ literal ∈ state.2.engine.picture.root, literal.Holds values) →
          ¬ ∀ list ∈ handed state.1 clauses, ClauseHolds values (list.map Literal.ofInt)))

/-- A formula was not taken over. -/
structure Refuses (state : σ × Simplifier) (cause : Error) (after : σ × Simplifier) : Prop where
  room : ∃ numbers middle, state.2.MakesRoom numbers middle ∧ middle.Refills after.2 ∧
    ∀ clauses solver, Solver.takeClauses state.1 = .done clauses solver →
      numbers ⊆ Solver.numVars state.1 :: numbersIn (handed state.1 clauses)
  enough : Solver.numVars state.1 ≤ after.2.numExported
  unsat : after.2.engine.unsat = state.2.engine.unsat
  reason : Refusal state cause after

/-- Root literals and clauses are read together. -/
theorem importAll_ends (root : List Int) (lists : List (List Int))
    (standing : simplifier.Standing records) :
    (do
      let units ← importLiterals root
      let literals ← importClauses lists
      return units.map (fun unit => [unit]) ++ literals :
        Run Simplifier (List (List Literal))).Ends simplifier
      (fun clauses after =>
        ImportsAll simplifier (root.map (fun literal => [literal]) ++ lists) clauses after)
      fun cause after => (cause = .invalidLiteral ∨ cause = .outOfRange) ∧
        simplifier.MakesRoom (numbersIn (root.map (fun literal => [literal]) ++ lists)) after := by
  have numbers : numbersIn (root.map (fun literal => [literal]) ++ lists) =
      (root.map fun value => (Literal.ofInt value).var) ++ numbersIn lists := by
    unfold numbersIn
    rw [List.flatten_append, List.map_append]
    congr 2
    induction root with
    | nil => rfl
    | cons value rest ih => simp [ih]
  rw [numbers]
  refine ((importLiterals_ends root standing).imp (fun _ _ held => held)
    fun cause after ⟨harmless, room⟩ => ⟨harmless, room.mono (by simp)⟩).bind ?_
  intro units middle first
  refine ((importClauses_ends lists (first.room.standing standing)).imp (fun _ _ held => held)
    fun cause after ⟨harmless, room⟩ => ⟨harmless, first.room.trans room⟩).bind ?_
  intro clauses after second
  have flat : (root.map (fun literal => [literal]) ++ lists).flatten = root ++ lists.flatten := by
    rw [List.flatten_append, ← List.flatMap_def, List.flatMap_singleton']
  refine .pure ⟨numbers ▸ first.room.trans second.room,
    List.forall_mem_append.2 ⟨fun clause member literal inside => ?_, second.present⟩,
    List.forall_mem_append.2 ⟨fun clause member literal inside zero => ?_,
      fun clause member literal inside zero => ?_⟩, fun inactive => ?_⟩
  rotate_left
  · obtain ⟨unit, isUnit, rfl⟩ := List.mem_map.1 member
    obtain rfl := List.mem_singleton.1 inside
    exact (first.named literal isUnit zero).mono rfl (by simp [flat])
  · exact (second.named clause member literal inside zero).mono first.room.active (by simp [flat])
  rotate_left
  · obtain ⟨unit, isUnit, rfl⟩ := List.mem_map.1 member
    rw [List.mem_singleton.1 inside]
    exact second.room.present (first.present unit isUnit)
  · rw [second.plain (first.room.active.trans inactive), first.plain inactive]
    simp [Function.comp_def]

omit [Solver σ] in
/-- The simplifier gives up its clauses and stores those that were read. -/
theorem replace_ends {before : Simplifier} {solver : σ} {numbers : List Nat}
    {lists : List (List Int)} {clauses : List (List Literal)} (standing : before.Standing records)
    (room : before.MakesRoom numbers simplifier)
    (present : ∀ clause ∈ clauses, ∀ literal ∈ clause, literal.var ≤ simplifier.numVars ∧
      ¬ simplifier.engine.trail.Removed literal.var ∧ simplifier.Numbered literal.var)
    (named : ∀ clause ∈ clauses, ∀ literal ∈ clause, literal.var = 0 →
      Unnamed before lists.flatten)
    (plain : before.numbering.isActive = false → clauses = lists.map (List.map Literal.ofInt)) :
    (do
      (Engine.releaseClauses : Run Simplifier Unit)
      Simplifier.collectGarbage
      (storeAll clauses : Run Simplifier Unit) : Run (σ × Simplifier) Unit).Ends (solver, simplifier)
      (fun _ after => after.1 = solver ∧ simplifier.Refills after.2 ∧
        after.2.engine.unsat = before.engine.unsat ∧
        (before.numbering.isActive = false → ∀ values, after.2.engine.picture.Holds values ↔
          (∀ literal ∈ before.engine.picture.root, literal.Holds values) ∧
            ∀ list ∈ lists, ClauseHolds values (list.map Literal.ofInt)))
      fun (cause : Error) after => after.1 = solver ∧ simplifier.Refills after.2 ∧
        after.2.engine.unsat = before.engine.unsat ∧
        (cause = .outOfRange ∧ Unnamed before lists.flatten ∨
          cause.isUnsat = true ∧ (before.numbering.isActive = false → ∀ values,
            (∀ literal ∈ before.engine.picture.root, literal.Holds values) →
              ¬ ∀ list ∈ lists, ClauseHolds values (list.map Literal.ofInt))) := by
  obtain ⟨count, widens⟩ := room.widens
  refine .seq (.onSecond ((Simplifier.releaseClauses_ends (widens.standing standing)).imp ?_
    fun _ _ held => held))
  rintro _ released ⟨gaveUp, unsatReleased, noClauses, rootReleased⟩
  have standingReleased := gaveUp.standing (widens.standing standing)
  refine .seq (.onSecond (Simplifier.collectGarbage_ends.imp ?_ fun _ _ held => held))
  intro _ tidied tidies
  have tidy := tidies.refills standingReleased
  have emptied := gaveUp.trans tidy
  have unsat : tidied.engine.unsat = before.engine.unsat :=
    ((tidies.goes standingReleased.sane.toInStep).unsat.trans unsatReleased).trans widens.unsat
  have holds : ∀ values, tidied.engine.picture.Holds values ↔
      ∀ literal ∈ before.engine.picture.root, literal.Holds values := by
    intro values
    have clauses : tidied.engine.picture.clauses = 0 := by
      rw [tidies.picture]
      exact noClauses
    have root : tidied.engine.picture.root = before.engine.picture.root := by
      rw [tidies.picture]
      exact rootReleased.trans widens.root
    rw [Picture.holds_iff, clauses, root]
    simp
  have lists_iff : before.numbering.isActive = false → ∀ values,
      (∀ clause ∈ clauses, ClauseHolds values clause) ↔
        ∀ list ∈ lists, ClauseHolds values (list.map Literal.ofInt) := by
    intro inactive values
    rw [plain inactive]
    exact List.forall_mem_map
  refine .onSecond (Simplifier.ends_onEngine ((Simplifier.storeAll_ends
    (tidy.standing standingReleased) ?_).imp (fun _ engine fills => ?_) ?_))
  · unfold Simplifier.Numbered
    rw [emptied.numVars, emptied.removed, emptied.numbering]
    exact present
  · refine ⟨rfl, emptied.trans fills.toRefills, fills.unsat.trans unsat, fun inactive values => ?_⟩
    rw [fills.holds, holds, lists_iff inactive]
  · rintro cause engine ⟨refills, unsatNow, reason⟩
    refine ⟨rfl, emptied.trans refills, unsatNow.trans unsat, reason.imp ?_ ?_⟩
    · rintro ⟨same, clause, member, literal, inside, zero⟩
      exact ⟨same, named clause member literal inside zero⟩
    · rintro ⟨isUnsat, noModel⟩
      exact ⟨isUnsat, fun inactive values root all =>
        noModel values ((holds values).2 root) ((lists_iff inactive values).2 all)⟩

/-- Taking over the formula of a solver. -/
theorem takeOver_ends (standing : state.2.Standing records) :
    (takeOver σ).Ends state
      (fun _ after => ∃ clauses, Solver.takeClauses state.1 = .done clauses after.1 ∧
        Replaces state.2 (Solver.numVars state.1) (handed state.1 clauses) after.2)
      fun cause after => Refuses state cause after := by
  obtain ⟨solver, before⟩ := state
  unfold takeOver
  refine .step rfl (.seq (.onSecond ((Simplifier.reserveExported_widens _
    standing.sane.trail.nonempty).imp ?_ fun _ _ held => held)))
  intro _ reserved widened
  have reserves := widened.makesRoom
  have enough := widened.le_numExported
  refine .seq (.onFirst ?_)
  cases took : Solver.takeClauses solver with
  | stuck why => exact .of_stuck took
  | failed cause last =>
    refine .of_failed took ⟨⟨_, reserved, reserves, .refl, fun clauses other done => ?_⟩, enough,
      widened.unsat, .untaken took⟩
    rw [took] at done
    cases done
  | done clauses taken =>
    refine .of_done took (.seq (.onSecond (.attempt ((importAll_ends (Solver.rootLiterals solver)
      clauses (reserves.standing standing)).imp ?_ ?_))))
    · intro imported middle imports
      have room : before.MakesRoom (Solver.numVars solver :: numbersIn (handed solver clauses)) middle :=
        reserves.trans imports.room
      refine (replace_ends standing room imports.present
        (fun clause member literal inside zero => (imports.named clause member literal inside
          zero).mono reserves.active (List.Subset.refl _))
        fun inactive => imports.plain (reserves.active.trans inactive)).imp ?_ ?_
      · rintro _ ⟨_, after⟩ ⟨rfl, refills, unsat, holds⟩
        exact ⟨clauses, rfl, ⟨middle, room, refills⟩, unsat, holds⟩
      · rintro cause ⟨_, after⟩ ⟨rfl, refills, unsat, reason⟩
        refine ⟨⟨_, middle, room, refills, fun others last done => ?_⟩,
          (enough.trans imports.room.numExported_le).trans refills.numExported.ge, unsat,
          .unstored took reason⟩
        rw [took] at done
        cases done
        exact List.Subset.refl _
    · rintro cause middle ⟨harmless, more⟩
      have room : before.MakesRoom (Solver.numVars solver :: numbersIn (handed solver clauses)) middle :=
        reserves.trans more
      have refused : ∀ notice cause last, (giveAll clauses taken = .failed cause last ∨
          giveAll clauses taken = .done () last ∧ (cause = .invalidLiteral ∨ cause = .outOfRange)) →
          Refuses (solver, before) cause (last, { middle with
            engine := { middle.engine with notices := middle.engine.notices.push notice } }) := by
        intro notice cause last back
        obtain ⟨_, widens⟩ := room.widens
        refine ⟨⟨_, middle, room, Simplifier.refills_tell notice, fun others last done => ?_⟩,
          enough.trans more.numExported_le, widens.unsat, .unread took back widens.arena widens.rootLiterals widens.root⟩
        rw [took] at done
        cases done
        exact List.Subset.refl _
      refine .seq (.onSecond (.of_done rfl (.seq (.onFirst ?_))))
      cases given : giveAll clauses taken with
      | stuck why => exact .of_stuck given
      | failed cause last => exact .of_failed given (refused _ cause last (.inl given))
      | done _ last => exact .of_done given (.fail (refused _ cause last (.inr ⟨given, harmless⟩)))

end Solver

end CnfSimplifier
