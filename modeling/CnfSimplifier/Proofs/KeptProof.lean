import CnfSimplifier.Proofs.ModelExtension

/-!
# The proof that is kept is a derivation

A proof that is kept from the formula on is a derivation by reverse unit propagation
from the clauses of the formula, over any history without further clauses: every
addition is redundant against the clauses that a reader of the proof holds at that
point. Once a run refutes the formula the proof ends with the empty clause, unless the
formula was refuted before the proof began.
-/
namespace CnfSimplifier

open ProofStep

namespace Simplifier

variable {before after start final : Simplifier} {records : List Record} {entries : List Entry}
  {settings : Settings} {formula : List (List Int)} {held : List (List Literal)} {began : Bool}

/-! ## Calls that leave the formula -/

/-- The formula, the proof and the verdict are the same. -/
structure SameFormula (before after : Simplifier) : Prop where
  root : after.engine.picture.root = before.engine.picture.root
  clauses : after.engine.picture.clauses = before.engine.picture.clauses
  log : after.engine.picture.log = before.engine.picture.log
  unsat : after.engine.unsat = before.engine.unsat

theorem SameFormula.obligations (same : before.SameFormula after) :
    after.engine.picture.obligations = before.engine.picture.obligations := by
  unfold Picture.obligations
  rw [same.root, same.clauses]
  rfl

theorem Widens.sameFormula {count : Nat} (widens : before.Widens count after) :
    before.SameFormula after := by
  refine ⟨widens.root, widens.clauses, ?_, widens.unsat⟩
  rw [widens.picture]

/-- Calls about variables and interruptions leave the formula. -/
def Call.isQuiet : Call → Bool
  | .newVar | .freeze _ | .unfreeze _ | .interrupt _ => true
  | _ => false

/-- A quiet call leaves the formula. -/
theorem Call.perform_quiet {call : Call} (quiet : call.isQuiet = true)
    (standing : before.Standing records) :
    call.perform.attempt.Ends before (fun _ after => before.SameFormula after) fun _ _ => False := by
  have switched : ∀ {name on trail}, before.engine.trail.Switches name on trail →
      before.SameFormula { before with engine := { before.engine with trail := trail } } :=
    fun switches => ⟨switches.facts, rfl, rfl, rfl⟩
  refine .attempt ?_
  cases call with
  | newVar =>
    exact (newVar_widens standing.sane.trail.nonempty).bind fun _ after widens =>
      .pure widens.sameFormula
  | freeze name =>
    refine .bind ((freeze_ends standing.sane.trail.numVars_lt).imp (fun _ _ held => held) fun cause after same => ?_) ?_
    · subst same
      exact ⟨rfl, rfl, rfl, rfl⟩
    · rintro _ _ ⟨_, _, _, trail, switches, rfl⟩
      exact .pure (switched switches)
  | unfreeze name =>
    refine .bind (unfreeze_ends.imp (fun _ _ held => held) fun cause after same => ?_) ?_
    · subst same
      exact ⟨rfl, rfl, rfl, rfl⟩
    · rintro _ _ ⟨trail, switches, rfl⟩
      exact .pure (switched switches)
  | interrupt on => exact .step rfl (.pure ⟨rfl, rfl, rfl, rfl⟩)
  | addClause _ => cases quiet
  | proof _ => cases quiet
  | run _ => cases quiet

/-! ## The clauses of the formula -/

/-- The proof is a derivation so far. While the formula is open what a reader holds
backs it; once it is refuted the proof is over, with the empty clause if the formula was
open when the proof began. -/
structure Documents (held : List (List Literal)) (began : Bool) (simplifier : Simplifier) :
    Prop where
  derived : simplifier.engine.unsat = false → simplifier.engine.picture.Derived held
  ended : simplifier.engine.unsat = true → ∃ steps, simplifier.engine.picture.log = some steps ∧
    Derivation held steps ∧ (began = true → steps.getLast? = some (.added []))

theorem Documents.of_same (documents : before.Documents held began)
    (same : before.SameFormula after) : after.Documents held began where
  derived isOpen :=
    (documents.derived (same.unsat ▸ isOpen)).of_same same.log same.root same.obligations
  ended closed := by
    rw [same.log]
    exact documents.ended (same.unsat ▸ closed)

/-- A run goes on with the proof, and ends it if the formula is refuted. -/
theorem Documents.run {inprocessing : Bool} (documents : before.Documents held began)
    (standing : before.Standing records) {failed : Error → Simplifier → Prop} :
    (run inprocessing).Ends before (fun _ after => after.Documents held began) failed := by
  cases closed : before.engine.unsat with
  | true =>
    have ended : Simplifier.run inprocessing before =
        .done .unsat { before with runs := before.runs + 1 } := by
      unfold Simplifier.run
      rw [Run.bind_of_done (Run.modify_apply ..), Run.bind_of_done (Run.get_apply _)]
      dsimp only
      rw [closed]
      rfl
    exact .of_done ended (documents.of_same ⟨rfl, rfl, rfl, rfl⟩)
  | false =>
    let _ : Realm := .within before.engine.picture.Appears
    have derived := documents.derived closed
    refine (run_ends (standing.fit closed)).imp ?_ fun _ _ impossible => impossible.elim
    rintro _ after ⟨_, ⟨leads, _⟩ | ⟨refutes, _⟩⟩
    · refine ⟨fun _ => derived.steps leads.steps, fun wrong => ?_⟩
      rw [leads.unsat, closed] at wrong
      cases wrong
    · refine ⟨fun isOpen => ?_, fun _ => ?_⟩
      · rw [refutes.unsat] at isOpen
        cases isOpen
      · obtain ⟨picture, steps, refuted, log, _⟩ := refutes.refuted
        obtain ⟨sofar, isLog, derivation⟩ := (derived.steps steps).refute refuted
        rw [isLog, closed, if_neg Bool.false_ne_true] at log
        exact ⟨_, log, derivation, fun _ => List.getLast?_concat⟩

/-- Calls that add nothing keep the proof a derivation. -/
theorem Course.documents (course : Course start entries records final)
    (documents : start.Documents held began)
    (running : ∀ entry ∈ entries, entry.call.isQuiet = true ∨ entry.call.isRun = true) :
    final.Documents held began := by
  induction course with
  | nil _ => exact documents
  | @cons entry entries records more after earlier made moved ih =>
    obtain ⟨now, before⟩ := List.forall_mem_cons.1 running
    have sofar := ih before
    rcases now with quiet | isRun
    · exact sofar.of_same ((Call.perform_quiet quiet earlier.standing).done_of_eq made)
    · cases isCall : entry.call with
      | run inprocessing =>
        have ends : (Call.run inprocessing).perform.attempt.Ends entry.before
            (fun _ after => after.Documents held began) fun _ _ => False :=
          .attempt ((sofar.run earlier.standing).bind fun _ _ documents => .pure documents)
        exact ends.done_of_eq (isCall ▸ made)
      | _ =>
        rw [isCall] at isRun
        cases isRun

end Simplifier

end CnfSimplifier
