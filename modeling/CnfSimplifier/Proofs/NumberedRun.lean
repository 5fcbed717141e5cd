import CnfSimplifier.Proofs.Reimport
import CnfSimplifier.Proofs.TakeOver
import CnfSimplifier.Proofs.UnnumberedRuns

/-!
# Numbering only renames

A formula that is simplified once is the same whether or not its variables are
numbered at the end. The status is the same, the exported formula differs in the
names of its variables, and a model of the exported formula is extended to the same
model of the whole formula.
-/
namespace CnfSimplifier

namespace Simplifier

variable {simplifier first second : Simplifier} {settings : Settings}
  {formula : List (List Int)} {frozen : List Nat} {before after : Simplifier}
  {start final : Simplifier} {status : Status} {literal : Literal} {back : Int → Int}
  {literals : List Int}

/-! ## One run on a formula -/

/-- Protect those of some variables that can be protected. -/
def protect : List Nat → Run Simplifier Unit
  | [] => pure ()
  | name :: rest => do
    let _ ← (freeze name).attempt
    protect rest

/-- Take a formula in and protect some variables. -/
def prepare (formula : List (List Int)) (frozen : List Nat) : Run Simplifier Unit := do
  addClauses formula
  protect frozen

/-- Simplify a formula once. -/
def simplified (settings : Settings) (formula : List (List Int)) (frozen : List Nat) :
    Outcome Simplifier Status :=
  (do
    prepare formula frozen
    preprocess) (ofVars settings (Dimensions.ofClauses formula).numVars)

theorem ignores_protect : IgnoresNumbering (protect frozen) := by
  induction frozen with
  | nil => exact .pure
  | cons name rest ih => exact ignores_freeze.attempt.bind fun _ => ih

theorem ignores_prepare : IgnoresNumbering (prepare formula frozen) :=
  ignores_addClauses.bind fun _ => ignores_protect

/-- Protecting a variable as a call. -/
theorem perform_freeze {name : Nat} {result : Except Error Unit}
    (ended : (freeze name).attempt before = .done result after) :
    (Call.freeze name).perform.attempt before = .done (result.map fun _ => none) after := by
  unfold Run.attempt at *
  cases froze : freeze name before with
  | done value state =>
    have performed : (Call.freeze name).perform before = .done none state := Run.bind_of_done froze
    rw [froze] at ended
    rw [performed]
    cases ended
    rfl
  | failed cause state =>
    have performed : (Call.freeze name).perform before = .failed cause state :=
      Run.bind_of_failed froze
    rw [froze] at ended
    rw [performed]
    cases ended
    rfl
  | stuck why =>
    rw [froze] at ended
    cases ended

/-- Protecting variables one by one is a history in which no run was made. -/
theorem exists_history_of_protect {start before after : Simplifier} {entries : List Entry}
    (ended : protect frozen before = .done () after) (earlier : History start entries before) :
    ∃ more, History start (more ++ entries) after ∧ hasRun more = false := by
  induction frozen generalizing before entries with
  | nil =>
    cases ended
    exact ⟨[], earlier, rfl⟩
  | cons name rest ih =>
    unfold protect at ended
    rw [Run.bind_apply] at ended
    cases attempted : (freeze name).attempt before with
    | done result middle =>
      rw [attempted] at ended
      obtain ⟨more, history, unrun⟩ :=
        ih ended (.made (.freeze name) earlier (perform_freeze attempted))
      refine ⟨more ++ [_], by rwa [List.append_assoc], ?_⟩
      unfold hasRun at unrun ⊢
      rw [List.any_append, unrun]
      rfl
    | failed cause middle =>
      rw [attempted] at ended
      cases ended
    | stuck why =>
      rw [attempted] at ended
      cases ended

/-- New variables are never refused. -/
theorem newVars_ends (count : Nat) {failed : Error → Simplifier → Prop} :
    (newVars count).Ends simplifier (fun _ _ => True) failed := by
  induction count generalizing simplifier with
  | zero => exact .pure trivial
  | succ count ih => exact .seq (newVar_ends fun _ _ _ => ih)

/-- The literals that are read are those of the clause. -/
theorem readLiterals_ends (clause : List Int) : (readLiterals clause).Ends simplifier
    (fun literals _ => literals = clause.map Literal.ofInt) fun cause _ => cause.isUnsat = false := by
  induction clause generalizing simplifier with
  | nil => exact .pure rfl
  | cons value rest ih =>
    by_cases zero : value = 0
    · subst zero
      exact .fail rfl
    rw [readLiterals.eq_3 value rest zero]
    apply Run.Ends.bind (.step rfl (newVars_ends _))
    intro _ middle _
    apply Run.Ends.seq (checkPresent_ends (fun _ _ => ?_) rfl)
    apply Run.Ends.bind ih
    rintro _ after rfl
    exact .pure rfl

/-- Every literal of a clause that was taken in has a variable. -/
theorem addClause_present (clause : List Int) : (addClause clause).Ends simplifier
    (fun _ _ => ∀ literal ∈ clause, 0 < (Literal.ofInt literal).var)
    fun cause _ => cause.isUnsat = true → ∀ literal ∈ clause, 0 < (Literal.ofInt literal).var := by
  unfold addClause
  apply Run.Ends.bind ((readLiterals_ends clause).imp (fun _ _ => id) ?_)
  · rintro _ middle rfl
    by_cases present : ∀ literal ∈ clause.map Literal.ofInt, 0 < literal.var
    · have all : ∀ literal ∈ clause, 0 < (Literal.ofInt literal).var := by simpa using present
      exact Run.Ends.trivial.imp (fun _ _ _ => all) fun _ _ _ _ => all
    · apply Run.Ends.seq (ends_onEngine (.attempt (.of_failed
        (importClause_of_not_present present) ?_)))
      dsimp only
      exact .seq (ends_onEngine (.of_done rfl (.fail nofun)))
  · intro cause _ notUnsat isUnsat
    rw [notUnsat] at isUnsat
    cases isUnsat

/-- Every literal of a formula that was taken in has a variable. -/
theorem present_of_added {clauses : List (List Int)}
    (added : addClauses clauses before = .done () after) :
    ∀ clause ∈ clauses, ∀ literal ∈ clause, 0 < (Literal.ofInt literal).var := by
  induction clauses generalizing before with
  | nil => simp
  | cons clause rest ih =>
    unfold addClauses at added
    rw [Run.bind_apply] at added
    have present := @addClause_present before clause
    unfold Run.attempt Run.Ends at *
    cases ended : addClause clause before with
    | done value middle =>
      rw [ended] at added present
      exact List.forall_mem_cons.2 ⟨present, ih added⟩
    | failed cause middle =>
      rw [ended] at added present
      dsimp only at added
      split at added
      next isUnsat => exact List.forall_mem_cons.2 ⟨present isUnsat, ih added⟩
      next => cases added
    | stuck why =>
      rw [ended] at added
      cases added

/-- A formula of integers of 32 bits that was taken in has literals of 31 bits only. -/
theorem small_of_prepared (prepared : prepare formula frozen before = .done () after)
    (fits : ∀ clause ∈ formula, ∀ literal ∈ clause, IsInt32 literal) :
    ∀ clause ∈ formula, ∀ literal ∈ clause, literal.natAbs < 2 ^ 31 := by
  intro clause member literal inside
  have present : 0 < (Literal.ofInt literal).var := by
    unfold prepare at prepared
    rw [Run.bind_apply] at prepared
    cases added : addClauses formula before with
    | done value middle => exact present_of_added added clause member literal inside
    | _ =>
      rw [added] at prepared
      cases prepared
  obtain ⟨lower, upper⟩ := fits clause member literal inside
  have notLeast : literal ≠ -2 ^ 31 := by
    rintro rfl
    exact absurd present (by decide)
  omega

/-- Calls leave the settings. -/
theorem Course.settings_eq {entries : List Entry} {records : List Record}
    (course : Course start entries records final) :
    final.engine.settings = start.engine.settings := by
  induction course with
  | nil => rfl
  | cons _ _ moved ih => exact moved.moves.settings.trans ih

/-- On a formula with protected variables no run was made yet. -/
theorem fresh_of_prepared {start : Simplifier}
    (prepared : prepare formula frozen (ofVars settings (Dimensions.ofClauses formula).numVars) =
      .done () start)
    (fits : ∀ clause ∈ formula, ∀ literal ∈ clause, IsInt32 literal) :
    start.Fresh ∧ start.engine.settings = settings := by
  have small := small_of_prepared prepared fits
  unfold prepare at prepared
  rw [Run.bind_apply] at prepared
  cases made : addClauses formula (ofVars settings (Dimensions.ofClauses formula).numVars) with
  | done value middle =>
    rw [made] at prepared
    obtain ⟨blank, base, isBlank, same, begun, unrun, _⟩ := exists_course_of_ofClauses made small
    obtain ⟨more, history, quiet⟩ := exists_history_of_protect prepared .nil
    rw [List.append_nil] at history
    obtain ⟨records, course⟩ := begun.exists_append history
    obtain ⟨none, inactive, removed⟩ := course.calm isBlank ((hasRun_append more unrun).trans quiet)
    rw [none] at course
    exact ⟨⟨course.standing, inactive, removed⟩, course.settings_eq.trans same⟩
  | _ =>
    rw [made] at prepared
    cases prepared

/-! ## The numbering after the run -/

section Numbers

variable [Realm]

/-- The part that numbers the variables leaves an open formula numbered, if this is
wanted. -/
theorem number_active (sound : simplifier.engine.unsat = true ∨ simplifier.engine.Sound)
    (strict : ¬ Realm.Lenient) (wanted : simplifier.engine.settings.renumbering = true) :
    (number false).Ends simplifier
      (fun _ after => after.engine.unsat = true ∨ after.numbering.isActive = true)
      fun _ _ => False := by
  unfold number
  refine .step rfl ?_
  split
  next asked =>
    simp only [Bool.and_eq_true, Bool.not_eq_true'] at asked
    have isSound := sound.resolve_left (by simp [asked.1.2])
    apply Run.Ends.seq (ends_onTools _)
    apply (Toolbox.process_renumbering_ends isSound strict).imp
    · rintro _ ⟨tools, engine⟩ ⟨_, fits⟩
      exact .pure (.inr fits.active)
    · exact fun _ _ impossible => impossible
  next declined =>
    apply Run.Ends.pure
    simp only [wanted, Bool.not_false, Bool.true_and, Bool.and_eq_true, Bool.not_eq_true',
      not_and, Bool.not_eq_false] at declined
    cases closed : simplifier.engine.unsat with
    | true => exact .inl rfl
    | false => exact .inr (declined closed)

/-- The end of a run leaves an open formula numbered, if this is wanted. -/
theorem finish_active (fit : simplifier.engine.Fit)
    (wanted : simplifier.engine.settings.renumbering = true) :
    (finish false).Ends simplifier
      (fun _ after => after.engine.unsat = true ∨ after.numbering.isActive = true)
      fun _ _ => False := by
  rw [finish_eq]
  apply (refresh_ends fit).bind
  rintro _ middle ⟨status, reaches⟩
  apply number_active (reaches.sound fit) fit.strict
  rcases reaches.decides with ⟨_, leads, _⟩ | ⟨_, refutes⟩
  · rwa [leads.settings]
  · rwa [refutes.goes.settings]

omit [Realm] in
/-- The end of a run neither numbers variables nor refutes the formula. -/
theorem close_quiet (inStep : simplifier.engine.InStep) {failed : Error → Simplifier → Prop} :
    close.Ends simplifier (fun _ after => after.numbering = simplifier.numbering ∧
      after.engine.unsat = simplifier.engine.unsat) failed := by
  unfold close
  refine .seq (updateTools_ends fun tools forgot => ?_)
  refine .bind collectGarbage_ends fun _ tidy tidies => .step rfl (.step rfl (.step rfl (.pure ?_)))
  exact ⟨tidies.numbering.trans (congrArg Tool.own (Toolbox.renumbering_forgetAll forgot)),
    (tidies.goes inStep).unsat⟩

/-- A run from a fit state leaves an open formula numbered, if this is wanted. -/
theorem run_active (fit : simplifier.engine.Fit)
    (wanted : simplifier.engine.settings.renumbering = true) :
    (run false).Ends simplifier
      (fun _ after => after.engine.unsat = true ∨ after.numbering.isActive = true)
      fun _ _ => False := by
  unfold Run.Ends
  rw [run_of_open fit.isOpen fit.intact]
  change Run.Ends _ _ _ _
  apply Run.Ends.bind (@opening_ends _ { simplifier with runs := simplifier.runs + 1 } _ _ fit)
  intro passes opened begun
  have openedFit := begun.fit
  have sameSettings := begun.settings
  apply Run.Ends.bind (runPasses_ends passes 1 openedFit)
  intro status after reaches
  by_cases decided : status = .unsat
  · rw [if_neg (not_not_intro decided)]
    rcases reaches.decides with ⟨open_, _⟩ | ⟨_, refutes⟩
    · exact absurd decided open_
    apply (close_quiet (refutes.goes.inStep.of_same rfl rfl rfl rfl)).imp
    · exact fun _ last ⟨_, unsat⟩ => .inl (unsat.trans refutes.unsat)
    · exact fun _ _ impossible => impossible
  · rw [if_pos decided]
    have leads := reaches.leads decided
    have afterFit := leads.fit openedFit
    have wantedNow : after.engine.settings.renumbering = true := by
      rwa [leads.settings, sameSettings]
    have start : after.Reaches .unknown after := .of_leads rfl (.refl afterFit.toSound) rfl
    have ends := (finish_active afterFit wantedNow).and (finish_ends (by decide) afterFit start)
    apply Run.Ends.bind (ends.imp (fun _ _ => id) fun _ _ impossible => impossible.1)
    rintro _ finished ⟨result, ended⟩
    have inStep : finished.engine.InStep := by
      rcases ended with simplified | refuted
      · exact simplified.leads.inStep
      · exact refuted.refutes.goes.inStep.of_same rfl rfl rfl rfl
    apply (close_quiet inStep).imp
    · rintro _ last ⟨numbering, unsat⟩
      rwa [numbering, unsat]
    · exact fun _ _ impossible => impossible

end Numbers

/-- What the export rests on after the only run that was made. -/
structure Exports (simplifier : Simplifier) : Prop extends Exportable simplifier where
  sound : @Engine.Sound .all simplifier.engine
  isOpen : simplifier.engine.unsat = false
  numbers : simplifier.Numbers
  kept : simplifier.numbering.isActive = true →
    ∀ name ∈ simplifier.numbering.names.toList, ¬ simplifier.engine.trail.Removed name

/-- A run that leaves the formula open leaves it ready for export. -/
theorem Fresh.exports (fresh : start.Fresh) (ended : run false start = .done status final)
    (isOpen : final.engine.unsat = false) : final.Exports := by
  obtain ⟨_, frozen, _, more, standing, moves⟩ :=
    (@run_moves start [] false fresh.standing (fun _ _ => False)).done_of_eq ended
  have fits : final.numbering.isActive = true → final.numbering.Fits final.engine.picture := by
    intro active
    rcases moves.renumbers with ⟨same, _⟩ | ⟨_, _, fits⟩
    · rw [same, fresh.inactive] at active
      cases active
    · exact fits
  constructor
  case toExportable => exact standing.exportable isOpen
  case sound => exact standing.sound
  case isOpen => exact isOpen
  case numbers =>
    apply numbers_of_numbered
    rintro name ⟨clause, member, literal, inside, rfl⟩ active
    exact (fits active).mentioned clause member literal inside
  case kept =>
    intro active name member removed
    let _ : Realm := .all
    rcases (fits active).needed name member with protect | ⟨clause, inside, literal, isLiteral, rfl⟩
    · have before : start.engine.trail.Frozen name := frozen ▸ protect
      rcases moves.removed name removed with already | unprotected
      · exact fresh.removed name already
      · exact unprotected before
    · obtain ⟨_, _, present, _⟩ := standing.sound.wellFormed.known_of_mem inside isLiteral
      exact present.resolve_right id removed

/-- A run that refutes the formula numbers no variables. -/
theorem Fresh.inactive_of_closed (fresh : start.Fresh)
    (ended : run false start = .done status final) (closed : final.engine.unsat = true) :
    final.numbering.isActive = false := by
  let _ : Realm := .within start.engine.picture.Appears
  cases before : start.engine.unsat with
  | true =>
    rw [run_of_closed before] at ended
    cases ended
    exact fresh.inactive
  | false =>
    obtain ⟨_, ⟨leads, _⟩ | ⟨_, numbering⟩⟩ :=
      (run_ends (fresh.standing.fit before)).done_of_eq ended
    · rw [leads.unsat, before] at closed
      cases closed
    · rw [numbering]
      exact fresh.inactive

/-- A run that leaves the formula open numbers its variables, if this is wanted. -/
theorem Fresh.active (fresh : start.Fresh) (ended : run false start = .done status final)
    (isOpen : final.engine.unsat = false) (wanted : start.engine.settings.renumbering = true) :
    final.numbering.isActive = true := by
  let _ : Realm := .within start.engine.picture.Appears
  cases before : start.engine.unsat with
  | true =>
    rw [run_of_closed before] at ended
    cases ended
    rw [before] at isOpen
    cases isOpen
  | false =>
    have active := (run_active (fresh.standing.fit before) wanted).done_of_eq ended
    exact active.resolve_left (by simp [isOpen])

/-- Without the wish for a numbering a run builds none. -/
theorem Fresh.inactive_of_unwanted (fresh : start.Fresh)
    (ended : run false start = .done status final)
    (unwanted : start.engine.settings.renumbering = false) : final.numbering.isActive = false := by
  obtain ⟨_, _, _, _, _, moves⟩ :=
    (@run_moves start [] false fresh.standing (fun _ _ => False)).done_of_eq ended
  rcases moves.renumbers with ⟨same, _⟩ | ⟨wanted, _, _⟩
  · exact same.trans fresh.inactive
  · rw [unwanted] at wanted
    cases wanted

/-! ## The way back -/

/-- A function that takes exported literals back to the literals they were. -/
structure Undoes (back : Int → Int) (simplifier : Simplifier) : Prop where
  zero : back 0 = 0
  literal : ∀ literal image, simplifier.exportedLiteral? literal = some image →
    back image.toInt = literal.toInt

/-- A literal of a numbered variable that is there has an exported form. -/
theorem Carries.exportedLiteral?_eq (carries : simplifier.Carries literal)
    (exportable : simplifier.Exportable) :
    ∃ image, simplifier.exportedLiteral? literal = some image ∧
      image.toInt = literal.renamed simplifier.rename := by
  obtain ⟨number, found⟩ := carries.numbered
  obtain ⟨image, exported, same⟩ := Option.map_eq_some_iff.1
    (toInt_exportLiteral? exportable carries.positive carries.small found)
  refine ⟨image, ?_, same⟩
  have inside := Trail.lt_of_le_numVars exportable.trail.nonempty carries.small
  unfold exportedLiteral?
  rw [if_neg carries.positive.ne']
  cases flags : simplifier.engine.trail.flags? literal.var with
  | none =>
    unfold Trail.flags? at flags
    rw [Array.getElem?_eq_getElem inside] at flags
    cases flags
  | some marks =>
    have kept : marks.isRemoved = false :=
      Bool.eq_false_iff.2 fun isRemoved => carries.kept ⟨marks, flags, isRemoved⟩
    dsimp only
    rw [kept, if_neg Bool.false_ne_true, exported]

/-- Renaming is undone. -/
theorem Undoes.renamed (undoes : Undoes back simplifier) (carries : simplifier.Carries literal)
    (exportable : simplifier.Exportable) :
    back (literal.renamed simplifier.rename) = literal.toInt := by
  obtain ⟨image, exported, same⟩ := carries.exportedLiteral?_eq exportable
  rw [← same]
  exact undoes.literal literal image exported

/-- Every literal of the formula has an exported form. -/
theorem Exports.carries (exports : simplifier.Exports) {clause : List Literal}
    (member : clause ∈ simplifier.engine.picture.formula) (inside : literal ∈ clause) :
    simplifier.Carries literal := by
  let _ : Realm := .all
  obtain ⟨positive, small, present, _⟩ := exports.sound.wellFormed.known_of_mem member inside
  exact ⟨positive, small, present.resolve_right id, exports.numbers clause member literal inside⟩

/-- Every number in use is the exported form of a literal. -/
theorem Exports.exists_carried (exports : simplifier.Exports)
    (active : simplifier.numbering.isActive = true) {value : Int} (nonzero : value ≠ 0)
    (small : value.natAbs ≤ simplifier.numExported) :
    ∃ literal, simplifier.Carries literal ∧ literal.renamed simplifier.rename = value := by
  unfold numExported at small
  rw [if_pos active] at small
  obtain ⟨distinct, inRange⟩ := exports.numbered active
  have inside : value.natAbs - 1 < simplifier.numbering.names.toList.length := by
    change value.natAbs ≤ simplifier.numbering.names.size at small
    rw [Array.length_toList]
    omega
  have member := List.getElem_mem inside
  generalize isName : simplifier.numbering.names.toList[value.natAbs - 1] = name at member
  obtain ⟨positive, below⟩ := inRange name member
  have isNumber : simplifier.number? name = some value.natAbs := by
    unfold number?
    rw [if_pos active, Numbering.number?_eq_some distinct]
    exact ⟨value.natAbs - 1, isName ▸ List.getElem?_eq_getElem inside, by omega⟩
  have fits := exports.trail.small_of_lt (Trail.lt_of_le_numVars exports.trail.nonempty below)
  have var : (Literal.ofVar name (decide (0 < value))).var = name := Literal.var_ofVar positive fits
  refine ⟨Literal.ofVar name (decide (0 < value)), ⟨?_, ?_, ?_, ?_⟩, ?_⟩
  · rwa [var]
  · rwa [var]
  · rw [var]
    exact exports.kept active name member
  · rw [var]
    exact ⟨_, isNumber⟩
  · unfold Literal.renamed
    rw [var, rename_eq isNumber, Literal.isPositive_ofVar positive fits]
    by_cases sign : 0 < value
    · rw [if_pos (decide_eq_true sign)]
      exact Int.natAbs_of_nonneg sign.le
    · rw [if_neg (by simpa using sign), Int.ofNat_natAbs_of_nonpos (not_lt.1 sign), neg_neg]

/-- Without a numbering in effect literals keep their names. -/
theorem renamed_of_inactive (inactive : simplifier.numbering.isActive = false) (literal : Literal) :
    literal.renamed simplifier.rename = literal.toInt := by
  unfold Literal.renamed
  rw [rename_eq (number?_of_inactive inactive literal.var), Literal.toInt]

/-- What has an exported form is a literal of a numbered variable that is there. -/
theorem carries_of_exportedLiteral? {literal image : Literal}
    (exported : simplifier.exportedLiteral? literal = some image) : simplifier.Carries literal := by
  unfold exportedLiteral? at exported
  split at exported
  · cases exported
  next nonzero =>
  split at exported
  · cases exported
  next flags found =>
  split at exported
  · cases exported
  next kept =>
  obtain ⟨state, atName, _⟩ := Option.map_eq_some_iff.1 found
  have inside : literal.var < simplifier.engine.trail.vars.size :=
    (Array.getElem?_eq_some_iff.1 atName).1
  have positive : 0 < literal.var := Nat.pos_of_ne_zero nonzero
  constructor
  case positive => exact positive
  case small =>
    change literal.var ≤ simplifier.engine.trail.vars.size - 1
    omega
  case kept =>
    rintro ⟨marks, same, removed⟩
    rw [found] at same
    cases same
    exact kept removed
  case numbered =>
    rw [exportLiteral?_eq positive] at exported
    obtain ⟨number, isNumber, _⟩ := Option.map_eq_some_iff.1 exported
    exact ⟨number, isNumber⟩

/-- The literal that an exported one stands for. -/
def original (simplifier : Simplifier) (value : Int) : Int :=
  if value = 0 then 0
  else ((simplifier.numbering.ofNumbered? (Literal.ofInt value)).map Literal.toInt).getD 0

/-- With a numbering in effect exported literals can be taken back. -/
theorem undoes_original (exportable : simplifier.Exportable)
    (active : simplifier.numbering.isActive = true) : Undoes simplifier.original simplifier where
  zero := rfl
  literal literal image exported := by
    have carries := carries_of_exportedLiteral? exported
    obtain ⟨number, found⟩ := carries.numbered
    obtain ⟨other, same, written⟩ := carries.exportedLiteral?_eq exportable
    obtain ⟨positive, _, smallNumber⟩ :=
      number?_inRange exportable carries.positive carries.small found
    have small := exportable.trail.small_of_lt
      (Trail.lt_of_le_numVars exportable.trail.nonempty carries.small)
    rw [exported] at same
    cases same
    have nonzero : image.toInt ≠ 0 := by
      rw [written, ← Int.natAbs_ne_zero, Literal.natAbs_renamed, rename_eq found]
      exact positive.ne'
    unfold original
    rw [if_neg nonzero, written, Literal.ofInt_renamed (rename_eq found) positive smallNumber,
      ofNumbered?_of_number? active (exportable.numbered active).1 carries.positive small found
        smallNumber]
    rfl

/-- Without a numbering nothing is to be undone. -/
theorem undoes_of_inactive (inactive : simplifier.numbering.isActive = false) :
    Undoes id simplifier where
  zero := rfl
  literal literal image exported := by
    unfold exportedLiteral? exportLiteral? at exported
    rw [inactive, if_neg Bool.false_ne_true] at exported
    split at exported
    · cases exported
    split at exported
    · cases exported
    split at exported
    · cases exported
    · cases exported
      rfl

/-- Clauses are taken back one by one. -/
theorem map_write (zero : back 0 = 0) (clauses : List (List Int)) :
    (ClauseStream.write clauses).map back = ClauseStream.write (clauses.map (List.map back)) := by
  induction clauses with
  | nil => rfl
  | cons clause rest ih =>
    unfold ClauseStream.write at ih ⊢
    rw [List.flatMap_cons, List.map_append, ih, List.map_cons, List.flatMap_cons, List.map_append]
    simp [zero]

/-- Two simplifiers of the same engine, of which only one has a numbering in effect,
export the same formula under different names. -/
theorem Exports.dump_eq (exports : first.Exports) (others : second.Exports)
    (same : unnumbered first = unnumbered second) (inactive : second.numbering.isActive = false)
    (undoes : Undoes back first) : first.dump.map back = second.dump := by
  let _ : Realm := .all
  have sameRoot : first.engine.trail.rootLiterals = second.engine.trail.rootLiterals :=
    (congrArg (fun engine : Engine => engine.trail.rootLiterals) (engine_eq same) :)
  have sameClauses : first.engine.arena.liveClauses = second.engine.arena.liveClauses :=
    (congrArg (fun engine : Engine => engine.arena.liveClauses) (engine_eq same) :)
  have isRoot : first.engine.trail.rootLiterals = first.engine.picture.root :=
    exports.toExportable.rootLiterals
  unfold dump
  rw [map_write undoes.zero, exportedLists_eq exports.toExportable exports.sound exports.isOpen
    exports.numbers, exportedLists_eq others.toExportable others.sound others.isOpen others.numbers,
    ← sameRoot, ← sameClauses, List.map_append, List.map_map, List.map_map]
  congr 2
  · apply List.map_congr_left
    intro literal atRoot
    rw [isRoot] at atRoot
    have carries := exports.carries (Picture.mem_formula_of_root atRoot) List.mem_cons_self
    rw [renamed_of_inactive inactive, Function.comp_apply, List.map_singleton,
      undoes.renamed carries exports.toExportable]
  · apply List.map_congr_left
    intro clause live
    rw [Function.comp_apply, List.map_map]
    apply List.map_congr_left
    intro literal inside
    have carries := exports.carries (mem_formula_of_liveClauses live) inside
    rw [renamed_of_inactive inactive, Function.comp_apply,
      undoes.renamed carries exports.toExportable]

/-! ## Models on the way back -/

/-- Literals that are taken back give a variable the value that they gave its number. -/
theorem valueIn_map (exportable : first.Exportable)
    (carried : ∀ value ∈ literals, ∃ literal, first.Carries literal ∧
      literal.renamed first.rename = value ∧ back value = literal.toInt) (name : Nat) :
    valueIn (literals.map back) name = (first.number? name).bind (valueIn literals) := by
  induction literals with
  | nil => cases first.number? name <;> rfl
  | cons value rest ih =>
    obtain ⟨⟨literal, carries, isValue, isBack⟩, later⟩ := List.forall_mem_cons.1 carried
    obtain ⟨number, found⟩ := carries.numbered
    have positive := (number?_inRange exportable carries.positive carries.small found).1
    have isNumber : value.natAbs = number := by
      rw [← isValue, Literal.natAbs_renamed, rename_eq found]
    have sign : decide (0 < value) = literal.isPositive := by
      rw [← isValue]
      exact Literal.renamed_pos (by rwa [rename_eq found])
    have without : ∀ found : Option Bool, (found <|> none) = found := by rintro (_ | _) <;> rfl
    rw [List.map_cons, valueIn, ih later, isBack, Literal.natAbs_toInt,
      Literal.toInt_pos carries.positive]
    by_cases same : literal.var = name
    · subst same
      rw [if_pos rfl, found, Option.bind_some, Option.bind_some, valueIn, isNumber, if_pos rfl, sign]
    · rw [if_neg same, without]
      cases isOther : first.number? name with
      | none => rfl
      | some other =>
        have apart : value.natAbs ≠ other := by
          rintro rfl
          rw [isNumber] at isOther
          exact same (number?_inj exportable found isOther)
        rw [Option.bind_some, Option.bind_some, valueIn, if_neg apart, without]

/-- Tables of values are equal if they say the same of every variable. -/
theorem eq_of_join {table other : Model} (size : table.size = other.size)
    (value : ∀ name < table.size, (table[name]?).join = (other[name]?).join) : table = other := by
  apply Array.ext_getElem?
  intro name
  by_cases inside : name < table.size
  · have here := value name inside
    rw [Array.getElem?_eq_getElem inside, Array.getElem?_eq_getElem (size ▸ inside)] at here ⊢
    exact congrArg some here
  · rw [Array.getElem?_eq_none (by omega), Array.getElem?_eq_none (by omega)]

/-- How a model is extended once its values have gone to the variables. -/
theorem extendModel_of_table (isOpen : simplifier.engine.unsat = false) {read table : Model}
    (isRead : readModel literals (Array.replicate (simplifier.numExported + 1) none) = .ok read)
    (isTable : (if simplifier.numbering.isActive then
      simplifier.numbering.decompress read simplifier.numVars else some read) = some table) :
    (extendModel literals simplifier).mapState (fun _ => ()) =
      match simplifier.engine.poisoned,
        (setRoot simplifier.engine.trail.rootLiterals table).bind
          simplifier.engine.records.extend with
      | some message, _ => .failed (.invariantBroken message) ()
      | none, none => .stuck .badAccess
      | none, some values => .done ((List.range' 1 simplifier.numVars).map fun (name : Nat) =>
          if (values[name]?).join = some true then (name : Int) else -(name : Int)) () := by
  have extended : simplifier.extendValues read = (setRoot simplifier.engine.trail.rootLiterals
      table).bind simplifier.engine.records.extend := by
    unfold extendValues
    by_cases active : simplifier.numbering.isActive = true
    · rw [if_pos active] at isTable
      simp only [if_pos active, isTable]
      rfl
    · rw [if_neg active] at isTable
      cases isTable
      simp only [if_neg active]
      rfl
  unfold extendModel
  rw [Run.bind_of_done (Run.get_apply simplifier)]
  cases poisoned : simplifier.engine.poisoned with
  | some message => rfl
  | none =>
    dsimp only
    rw [isOpen, if_neg Bool.false_ne_true, isRead]
    dsimp only
    rw [extended]
    cases (setRoot simplifier.engine.trail.rootLiterals table).bind
      simplifier.engine.records.extend <;> rfl

/-- Simplifiers that differ in the numbering only extend models alike. -/
theorem Exports.extendModel_eq (exports : first.Exports) (others : second.Exports)
    (same : unnumbered first = unnumbered second) (active : first.numbering.isActive = true)
    (inactive : second.numbering.isActive = false) (undoes : Undoes back first)
    (proper : ∀ literal ∈ literals, literal ≠ 0 ∧ literal.natAbs ≤ first.numExported) :
    (extendModel literals first).mapState (fun _ => ()) =
      (extendModel (literals.map back) second).mapState fun _ => () := by
  have carried : ∀ value ∈ literals, ∃ literal, first.Carries literal ∧
      literal.renamed first.rename = value ∧ back value = literal.toInt := by
    intro value member
    obtain ⟨nonzero, small⟩ := proper value member
    obtain ⟨literal, carries, rfl⟩ := exports.exists_carried active nonzero small
    exact ⟨literal, carries, rfl, undoes.renamed carries exports.toExportable⟩
  have sameVars : first.numVars = second.numVars := (congrArg Engine.numVars (engine_eq same) :)
  have properBack : ∀ literal ∈ literals.map back,
      literal ≠ 0 ∧ literal.natAbs ≤ second.numExported := by
    intro value member
    obtain ⟨exported, inside, rfl⟩ := List.mem_map.1 member
    obtain ⟨literal, carries, _, isBack⟩ := carried exported inside
    rw [isBack]
    refine ⟨Literal.toInt_ne_zero carries.positive, ?_⟩
    rw [Literal.natAbs_toInt, numExported_of_inactive inactive, ← sameVars]
    exact carries.small
  obtain ⟨read, isRead, readSize, readValue⟩ := exists_read proper
  obtain ⟨readBack, isReadBack, backSize, backValue⟩ := exists_read properBack
  obtain ⟨table, isTable, tableSize, tableValue⟩ :=
    exists_unnumbered exports.toExportable readSize readValue
  obtain ⟨other, isOther, otherSize, otherValue⟩ :=
    exists_unnumbered others.toExportable backSize backValue
  have sameTable : table = other := by
    apply eq_of_join (tableSize.trans (sameVars ▸ otherSize.symm))
    intro name inside
    have small : name ≤ first.numVars := by omega
    rw [tableValue name small, otherValue name (sameVars ▸ small), number?_of_inactive inactive,
      Option.bind_some, valueIn_map exports.toExportable carried]
  have samePoison : first.engine.poisoned = second.engine.poisoned :=
    (congrArg Engine.poisoned (engine_eq same) :)
  have sameTrail : first.engine.trail = second.engine.trail :=
    (congrArg Engine.trail (engine_eq same) :)
  have sameRecords : first.engine.records = second.engine.records :=
    (congrArg Engine.records (engine_eq same) :)
  rw [extendModel_of_table exports.isOpen isRead isTable,
    extendModel_of_table others.isOpen isReadBack isOther, sameTable, sameVars, samePoison, sameTrail,
    sameRecords]

/-! ## The two runs -/

/-- Outcomes that differ in the exported names only: a status is the same, the exported
formula is the same once its literals are taken back, and so is the extension of any
model. What is refused is refused for the same cause. -/
inductive Renamed : Outcome Simplifier Status → Outcome Simplifier Status → Prop
  | done {status : Status} {first second : Simplifier} (undone : ∃ back, Undoes back first)
    (dump : ∀ back, Undoes back first → first.dump.map back = second.dump)
    (extend : ∀ back, Undoes back first → ∀ literals : List Int,
      (∀ literal ∈ literals, literal ≠ 0 ∧ literal.natAbs ≤ first.numExported) →
      (extendModel literals first).mapState (fun _ => ()) =
        (extendModel (literals.map back) second).mapState fun _ => ()) :
    Renamed (.done status first) (.done status second)
  | failed {cause : Error} {first second : Simplifier} :
    Renamed (.failed cause first) (.failed cause second)
  | stuck {why : Breakdown} : Renamed (.stuck why) (.stuck why)

/-- A formula that was refuted has no names to differ in. -/
theorem renamed_of_closed (same : unnumbered first = unnumbered second)
    (closed : first.engine.unsat = true) (inactive : first.numbering.isActive = false) :
    Renamed (.done status first) (.done status second) := by
  have sameUnsat : first.engine.unsat = second.engine.unsat :=
    (congrArg Engine.unsat (engine_eq same) :)
  have samePoison : first.engine.poisoned = second.engine.poisoned :=
    (congrArg Engine.poisoned (engine_eq same) :)
  apply Renamed.done ⟨id, undoes_of_inactive inactive⟩
  · intro back undoes
    unfold dump exportedLists
    rw [← sameUnsat, closed, if_pos rfl, if_pos rfl, map_write undoes.zero]
    rfl
  · intro back undoes literals _
    unfold extendModel
    rw [Run.bind_of_done (Run.get_apply first), Run.bind_of_done (Run.get_apply second),
      ← samePoison, ← sameUnsat, closed]
    cases first.engine.poisoned <;> rfl

/-- On fresh simplifiers that differ in the wish for a numbering only, the runs differ
in names only. -/
theorem Fresh.renamed (fresh : first.Fresh) (other : second.Fresh)
    (same : unnumbered first = unnumbered second)
    (wanted : first.engine.settings.renumbering = true)
    (unwanted : second.engine.settings.renumbering = false) :
    Renamed (preprocess first) (preprocess second) := by
  have samePicture : second.engine.picture = first.engine.picture :=
    (congrArg Engine.picture (engine_eq same).symm :)
  have sameUnsat : second.engine.unsat = first.engine.unsat :=
    (congrArg Engine.unsat (engine_eq same).symm :)
  let _ : Realm := .within first.engine.picture.Appears
  have alike : (run false first).Alike (run false second) := by
    apply run_alike same
    intro isOpen
    have fit := other.standing.fit (sameUnsat.trans isOpen)
    rw [samePicture] at fit
    exact ⟨fresh.standing.fit isOpen, fit⟩
  unfold preprocess
  generalize isFirst : run false first = left, isSecond : run false second = right at alike
  cases alike with
  | failed => exact .failed
  | stuck => exact .stuck
  | @done status after last sameAfter =>
    have inactive := other.inactive_of_unwanted isSecond unwanted
    cases closed : after.engine.unsat with
    | true => exact renamed_of_closed sameAfter closed (fresh.inactive_of_closed isFirst closed)
    | false =>
      have exports := fresh.exports isFirst closed
      have lastOpen : last.engine.unsat = false :=
        (congrArg Engine.unsat (engine_eq sameAfter).symm :).trans closed
      have exportsLast := other.exports isSecond lastOpen
      have active := fresh.active isFirst closed wanted
      apply Renamed.done ⟨_, undoes_original exports.toExportable active⟩
      · exact fun back undoes => exports.dump_eq exportsLast sameAfter inactive undoes
      · exact fun back undoes literals proper =>
          exports.extendModel_eq exportsLast sameAfter active inactive undoes proper

/-- Numbering the variables at the end of a run only renames them. -/
theorem renamed_of_renumbering (settings : Settings) (formula : List (List Int))
    (frozen : List Nat) (fits : ∀ clause ∈ formula, ∀ literal ∈ clause, IsInt32 literal) :
    Renamed (simplified { settings with renumbering := true } formula frozen)
      (simplified { settings with renumbering := false } formula frozen) := by
  have start : unnumbered (ofVars { settings with renumbering := true }
      (Dimensions.ofClauses formula).numVars) = unnumbered (ofVars
      { settings with renumbering := false } (Dimensions.ofClauses formula).numVars) := rfl
  have alike := (@ignores_prepare formula frozen).alike start
  unfold simplified
  rw [Run.bind_apply, Run.bind_apply]
  generalize isFirst : prepare formula frozen (ofVars { settings with renumbering := true }
    (Dimensions.ofClauses formula).numVars) = left, isSecond : prepare formula frozen (ofVars
    { settings with renumbering := false } (Dimensions.ofClauses formula).numVars) = right at alike ⊢
  cases alike with
  | failed => exact .failed
  | stuck => exact .stuck
  | done same =>
    obtain ⟨fresh, wanted⟩ := fresh_of_prepared isFirst fits
    obtain ⟨other, unwanted⟩ := fresh_of_prepared isSecond fits
    exact fresh.renamed other same (by rw [wanted]) (by rw [unwanted])

/-- One of two equivalent variables is substituted, and three of seven variables are
numbered. -/
theorem renamed_of_renumbering_equivalence :
    ∃ first second,
      simplified { Settings.bare {} with equivalences := true, renumbering := true }
        [[2, -5], [-2, 5], [5, 4, 7], [-2, -4, -7]] [7] = .done .unknown first ∧
      simplified { Settings.bare {} with equivalences := true, renumbering := false }
        [[2, -5], [-2, 5], [5, 4, 7], [-2, -4, -7]] [7] = .done .unknown second ∧
      first.dump = [-1, -2, -3, 0, 1, 2, 3, 0] ∧
      (∀ back, Undoes back first → first.dump.map back = second.dump) ∧
      second.dump = [-2, -4, -7, 0, 2, 4, 7, 0] ∧
      (extendModel [1, -2, 3] first).value? = some [1, 2, 3, -4, 5, 6, 7] ∧
      (extendModel ([1, -2, 3].map first.original) second).value? =
        some [1, 2, 3, -4, 5, 6, 7] := by
  have renamed := renamed_of_renumbering { Settings.bare {} with equivalences := true }
    [[2, -5], [-2, 5], [5, 4, 7], [-2, -4, -7]] [7] (by decide)
  obtain ⟨status, first, isFirst, _, second, isSecond, checked⟩ :
      Run.Returns (do
          prepare [[2, -5], [-2, 5], [5, 4, 7], [-2, -4, -7]] [7]
          preprocess) (ofVars { Settings.bare {} with equivalences := true, renumbering := true } 7)
        fun status first => Run.Returns (do
          prepare [[2, -5], [-2, 5], [5, 4, 7], [-2, -4, -7]] [7]
          preprocess) (ofVars { Settings.bare {} with equivalences := true, renumbering := false } 7)
            fun _ second => decide (status = .unknown ∧
              first.dump = [-1, -2, -3, 0, 1, 2, 3, 0] ∧ second.dump = [-2, -4, -7, 0, 2, 4, 7, 0] ∧
              (extendModel [1, -2, 3] first).value? = some [1, 2, 3, -4, 5, 6, 7] ∧
              (extendModel ([1, -2, 3].map first.original) second).value? =
                some [1, 2, 3, -4, 5, 6, 7]) := by
    decide +kernel
  obtain ⟨rfl, exported, plain, extended, plainly⟩ := of_decide_eq_true checked
  replace isFirst : simplified { Settings.bare {} with equivalences := true, renumbering := true }
      [[2, -5], [-2, 5], [5, 4, 7], [-2, -4, -7]] [7] = .done .unknown first := isFirst
  replace isSecond : simplified { Settings.bare {} with equivalences := true, renumbering := false }
      [[2, -5], [-2, 5], [5, 4, 7], [-2, -4, -7]] [7] = .done _ second := isSecond
  rw [isFirst, isSecond] at renamed
  cases renamed with
  | done _ dump extend =>
    exact ⟨first, second, isFirst, isSecond, exported, dump, plain, extended, plainly⟩

/-- Two workers may eliminate variables for one clause more than there was, all together. -/
def contest : Settings :=
  { Settings.bare {} with
    elimination := true, workers := 2, growth := 1, totalGrowth := 1, passes := 1 }

/-- The first two variables share no clause, and the elimination of either adds one. -/
def rivals : List (List Int) :=
  [[1, 3], [1, 4], [-1, 5], [-1, 6], [-1, 7], [2, 8], [2, 9], [-2, 10], [-2, 11], [-2, 12]]

/-- If the workers do not follow each other in the same way in both runs, not the same variable
is eliminated, and the formulas differ in more than names. -/
theorem not_renamed_of_schedules :
    ¬ Renamed
      (simplified { contest with renumbering := true, schedule := fun _ => [{ place := 1 }] }
        rivals [3, 4, 5, 6, 7, 8, 9, 10, 11, 12])
      (simplified { contest with renumbering := false, schedule := fun _ => [] }
        rivals [3, 4, 5, 6, 7, 8, 9, 10, 11, 12]) := by
  obtain ⟨_, first, isFirst, _, second, isSecond, checked⟩ :
      Run.Returns (do
          prepare rivals [3, 4, 5, 6, 7, 8, 9, 10, 11, 12]
          preprocess) (ofVars { contest with renumbering := true, schedule := fun _ => [{ place := 1 }] }
            (Dimensions.ofClauses rivals).numVars)
        fun _ first => Run.Returns (do
          prepare rivals [3, 4, 5, 6, 7, 8, 9, 10, 11, 12]
          preprocess) (ofVars { contest with renumbering := false, schedule := fun _ => [] }
            (Dimensions.ofClauses rivals).numVars)
            fun _ second => decide (1 ∈ first.dump ∧
              (first.exportedLiteral? (.ofVar 1 true)).map Literal.toInt = some 1 ∧
              1 ∉ second.dump) := by
    decide +kernel
  obtain ⟨kept, exported, gone⟩ := of_decide_eq_true checked
  intro renamed
  unfold simplified at renamed
  rw [isFirst, isSecond] at renamed
  cases renamed with
  | done undone dump =>
  obtain ⟨back, undoes⟩ := undone
  obtain ⟨image, exported, number⟩ := Option.map_eq_some_iff.1 exported
  have same := undoes.literal _ image exported
  rw [number] at same
  exact gone (dump back undoes ▸ List.mem_map.2 ⟨1, kept, same⟩)

end Simplifier

end CnfSimplifier
