import CnfSimplifier.Proofs.RunSafety

/-!
# Calls that can lack nothing but names

Between calls a simplifier is at rest: no tool holds a handle, the tables range over the
variables, and the trail is in order, also after a refutation. A call on a simplifier that is
standing and at rest makes no access outside the tables, and comes to its end. If it gets
stuck then because there is no name left for a variable or a clause, and if it does not, or is
refused, the simplifier is at rest again.
-/
namespace CnfSimplifier

/-! ## Trails in order -/

/-- No level is open, all literals of the trail are facts, and entry 0, which belongs to no
variable, was not removed. -/
structure Trail.InOrder (trail : Trail) : Prop where
  atRoot : trail.levels = #[]
  orderly : trail.Orderly
  kept : ¬ trail.Removed 0

/-- Assigning a root literal keeps the trail in order. -/
theorem Trail.InOrder.assignAtRoot {trail : Trail} {literal : Literal} (inOrder : trail.InOrder) :
    (Trail.assignAtRoot literal).Ends trail (fun _ after => after.InOrder)
      fun _ after => after.InOrder := by
  have closed : trail.cancelUntil 0 = some trail := by simp [cancelUntil, inOrder.atRoot]
  refine .step (Run.update_of_eq_some closed) (.step rfl ?_)
  split
  · exact .fail inOrder
  refine Run.Looks.access.bind fun value found => ?_
  split
  · refine .update fun after pushed => ⟨(push_eq_some pushed).2.2.1.trans inOrder.atRoot, ?_, ?_⟩
    · exact inOrder.orderly.push (by simp [literalValue?, found, Literal.valueUnder]) pushed
    · rw [(sameFlags_push pushed).removed]
      exact inOrder.kept
  · split
    · exact .pure inOrder
    · exact .fail inOrder

namespace Engine

variable {engine : Engine}

/-- A trail that is in order stays so. -/
def StaysInOrder (before after : Engine) : Prop := before.trail.InOrder → after.trail.InOrder

theorem StaysInOrder.of_trail {before after : Engine} (trail : after.trail = before.trail) :
    before.StaysInOrder after := fun inOrder => trail ▸ inOrder

/-- There is no name left, or a variable is added. -/
theorem handle_newVar_fares {done : Unit → Engine → Prop} {failed : Error → Engine → Prop}
    (holds : done () engine.widened) : (handle .newVar).Fares engine done failed := by
  refine ⟨handle_newVar_ends fun _ => holds, ?_⟩
  unfold handle
  refine .step rfl ?_
  split
  · exact .step rfl (.of_done rfl)
  · exact .stop rfl

/-- A new variable is in no clause. -/
theorem Ranged.widened (ranged : engine.Ranged) : engine.widened.Ranged := by
  intro slot clause found literal inside
  obtain ⟨positive, small⟩ := ranged slot clause found literal inside
  refine ⟨positive, ?_⟩
  change literal.var < (engine.trail.vars.push {}).size
  rw [Array.size_push]
  exact Nat.lt_succ_of_lt small

instance : Tolerant StaysInOrder where
  refl _ := id
  trans first second inOrder := second (first inOrder)
  aside _ trail _ := .of_trail trail
  removes _ := id
  strengthens _ := id
  promotes _ := id
  assigns engine literal := by
    by_cases inOrder : engine.trail.InOrder
    · exact inOrder.assignAtRoot.imp (fun _ _ after _ => after) fun _ _ after _ => after
    · exact Run.Ends.trivial.imp (fun _ _ _ now => absurd now inOrder)
        fun _ _ _ now => absurd now inOrder

end Engine

/-- The heap of elimination ranges over a variable more when one is added. -/
theorem VarHeap.Sized.widened {heap : VarHeap} {count : Nat} (sized : heap.Sized count)
    (nonempty : 0 < count) : (heap.expand (heap.numVars + 1)).Sized (count + 1) := by
  obtain ⟨orders, places⟩ := sized
  constructor
  · simp only [VarHeap.expand, VarHeap.numVars, Array.size_append, List.size_toArray,
      List.length_range']
    omega
  · simp only [VarHeap.expand, VarHeap.numVars, Array.size_append, List.size_toArray,
      List.length_range']
    omega

namespace Simplifier

variable {simplifier before : Simplifier} {records : List Record} {α : Type}
  {failed : Error → Simplifier → Prop}

/-- Between calls no tool holds a handle, the tables range over the variables, and the
trail is in order. -/
structure AtRest (simplifier : Simplifier) : Prop where
  idle : simplifier.tools.Idle
  spans : simplifier.tools.Spans simplifier.engine
  trail : simplifier.engine.trail.InOrder

/-- A new simplifier is at rest. -/
theorem atRest_ofVars (settings : Settings) (numVars : Nat) : (ofVars settings numVars).AtRest where
  idle := Toolbox.idle_ofVars numVars
  spans := by
    refine ⟨fun slot clause found => ?_, Nat.le_refl _, ?_⟩
    · cases found
    · constructor <;> simp [ofVars, Toolbox.ofVars, Eliminator.ofVars, VarHeap.ofVars, Engine.ofVars, Trail.ofVars]
  trail := ⟨rfl, rfl, removed_ofVars numVars 0⟩

/-- What the engine does that keeps its tables and the order of its trail. -/
theorem AtRest.meets_onEngine {body : Run Engine α} (rest : simplifier.AtRest)
    (safe : body.Safe (· = .outOfSpace) simplifier.engine) (lasts : Lasts body)
    (orders : Tracks Engine.StaysInOrder body) :
    (liftM body : Run Simplifier α).Fares simplifier (fun _ after => after.AtRest)
      fun _ after => after.AtRest := by
  have keeps : ∀ engine, simplifier.engine.Endures engine → simplifier.engine.StaysInOrder engine →
      AtRest { simplifier with engine := engine } := fun engine endures ordered =>
    ⟨rest.idle, rest.spans.endures endures rest.spans.heap, ordered rest.trail⟩
  refine Simplifier.meets_onEngine ⟨((lasts _).and (orders _)).imp ?_ ?_, safe⟩
  · exact fun _ engine held => keeps engine held.1 held.2
  · exact fun _ engine held => keeps engine held.1 held.2

/-! ## Variables -/

theorem elimination_numberVar (name : Nat) (tools : Toolbox) :
    (numberVar name tools).elimination = tools.elimination := by
  unfold numberVar
  dsimp only
  split <;> rfl

/-- A new variable can be added as long as there is a name for it. -/
theorem newVar_fares (rest : simplifier.AtRest) (nonempty : 0 < simplifier.engine.trail.vars.size) :
    newVar.Fares simplifier (fun _ after => after.AtRest ∧ simplifier.Widens 1 after) failed := by
  suffices fares : newVar.Fares simplifier (fun _ after => after.AtRest) failed by
    have widens : newVar.Ends simplifier _ failed := newVar_widens nonempty
    exact (fares.and_ends widens).imp (fun _ _ => id) fun _ _ => And.left
  unfold newVar handle
  refine .seq (.seq (Simplifier.meets_onEngine (Engine.handle_newVar_fares ?_)))
  refine .of_done (updateTools_of_eq_some rfl) (.step rfl
    (.step (updateTools_of_eq_some rfl) (.pure ?_)))
  refine ⟨(rest.idle.handle .newVar).numberVar _, ⟨rest.spans.ranged.widened, rest.spans.head, ?_⟩,
    rest.trail.atRoot, ?_, ?_⟩
  · rw [elimination_numberVar]
    change VarHeap.Sized (simplifier.engine.trail.vars.push {}).size _
    rw [Array.size_push]
    exact rest.spans.heap.widened nonempty
  · exact simplifier.engine.trail.facts_push_var.trans rest.trail.orderly
  · have removed : simplifier.engine.widened.trail.Removed = simplifier.engine.trail.Removed :=
      congrArg Picture.removed (Engine.picture_widened nonempty)
    change ¬ simplifier.engine.widened.trail.Removed 0
    rw [removed]
    exact rest.trail.kept

/-- New variables are added, if there is room for them. -/
theorem newVars_fares (count : Nat) (rest : simplifier.AtRest)
    (nonempty : 0 < simplifier.engine.trail.vars.size) :
    (newVars count).Fares simplifier (fun _ after => after.AtRest ∧ simplifier.Widens count after)
      failed := by
  induction count generalizing simplifier with
  | zero => exact .pure ⟨rest, .refl nonempty⟩
  | succ count ih =>
    refine (newVar_fares rest nonempty).bind fun _ middle ⟨rest, first⟩ => ?_
    refine (ih rest first.nonempty).imp (fun _ last further => ⟨further.1, ?_⟩) fun _ _ => id
    exact Nat.add_comm count 1 ▸ first.trans further.2

/-- Room can be made for the variables up to one. -/
theorem reserve_fares (numVars : Nat) (rest : simplifier.AtRest)
    (nonempty : 0 < simplifier.engine.trail.vars.size) :
    (reserve numVars).Fares simplifier (fun _ after => after.AtRest ∧
      (∃ count, simplifier.Widens count after) ∧ numVars ≤ after.numVars) failed := by
  refine .step rfl ((newVars_fares _ rest nonempty).imp (fun _ after held => ?_) fun _ _ => id)
  refine ⟨held.1, ⟨_, held.2⟩, ?_⟩
  rw [held.2.numVars]
  omega

/-! ## Clauses -/

/-- The marks of a variable that is there can be looked at. -/
theorem checkPresent_fares {literal : Literal} (rest : simplifier.AtRest)
    (inside : literal.var < simplifier.engine.trail.vars.size) :
    (checkPresent literal).Fares simplifier
      (fun _ after => after.AtRest ∧ after = simplifier) fun _ after => after.AtRest := by
  have found : simplifier.engine.trail.flags? literal.var =
      some simplifier.engine.trail.vars[literal.var].flags := by
    simp [Trail.flags?, inside]
  unfold checkPresent
  refine .step (Run.read_of_eq_some found) ?_
  split
  · exact .fail rest
  · exact .pure ⟨rest, rfl⟩

/-- The literals of a clause can be read as long as there are names for their variables. -/
theorem readLiterals_fares (clause : List Int) (rest : simplifier.AtRest)
    (nonempty : 0 < simplifier.engine.trail.vars.size) :
    (readLiterals clause).Fares simplifier (fun _ after => after.AtRest)
      fun _ after => after.AtRest := by
  induction clause generalizing simplifier with
  | nil => exact .pure rest
  | cons value others ih =>
    by_cases zero : value = 0
    · subst zero
      exact .fail rest
    rw [readLiterals.eq_3 value others zero]
    refine (reserve_fares _ rest nonempty).bind ?_
    rintro _ middle ⟨rest, ⟨_, widens⟩, enough⟩
    refine (checkPresent_fares rest (Trail.lt_of_le_numVars widens.nonempty enough)).bind ?_
    rintro _ _ ⟨rest, rfl⟩
    exact (ih rest widens.nonempty).bind fun _ _ rest => .pure rest

/-- A conclusion leaves it at rest. -/
theorem AtRest.conclude_fares (rest : simplifier.AtRest) (result : Except Error Unit) :
    (liftM (Engine.conclude result) : Run Simplifier Status).Fares simplifier
      (fun _ after => after.AtRest) fun _ after => after.AtRest :=
  rest.meets_onEngine Engine.safe_conclude Engine.tracks_conclude Engine.tracks_conclude

/-- A clause can be added as long as there are names for it and its variables. -/
theorem addClause_fares (clause : List Int) (rest : simplifier.AtRest)
    (inStep : simplifier.engine.InStep) :
    (addClause clause).Fares simplifier (fun _ after => after.AtRest)
      fun _ after => after.AtRest := by
  have nonempty := inStep.trail.nonempty
  unfold addClause
  refine (((readLiterals_fares clause rest nonempty).and_ends
    (readLiterals_widens clause nonempty)).imp (fun _ _ => id) fun _ _ => And.left).bind
    fun literals middle ⟨rest, ⟨_, widens⟩, _⟩ => ?_
  have safe : (Engine.importClause literals false).Safe (· = .outOfSpace) middle.engine :=
    Engine.safe_storeClause (widens.inStep inStep).roomy (.inr rfl)
  refine (rest.meets_onEngine safe.attempt (Tracks.attempt Engine.lasts_storeClause)
    (Tracks.attempt (Engine.tracks_storeClause fun _ => .of_trail rfl))).bind
    fun answer after rest => ?_
  cases answer with
  | ok stored => exact .pure rest
  | error cause => exact (rest.conclude_fares (.error cause)).bind fun _ _ rest => .fail rest

/-- Clauses can be added one by one as long as there are names for them and their variables. -/
theorem addClauses_fares (clauses : List (List Int)) (rest : simplifier.AtRest)
    (standing : simplifier.Standing records) :
    (addClauses clauses).Fares simplifier (fun _ after => after.AtRest) fun _ _ => True := by
  induction clauses generalizing simplifier with
  | nil => exact .pure rest
  | cons clause others ih =>
    refine .seq (.attempt (((addClause_fares clause rest standing.sane.toInStep).and_ends
      (addClause_ends clause standing.sane.toInStep)).imp ?_ ?_))
    · exact fun _ _ ⟨rest, adds⟩ => ih rest (adds.moves standing).1
    · intro cause _ ⟨rest, adds⟩
      dsimp only
      split
      · exact ih rest (adds.moves standing).1
      · exact .fail trivial

/-! ## Protection -/

/-- A variable that is there can be protected and given free. -/
theorem AtRest.setFlag_fares (rest : simplifier.AtRest) {name : Nat} {on : Bool}
    (inside : name < simplifier.engine.trail.vars.size) :
    (liftM (Engine.updateTrail fun trail => trail.setFlag name .frozen on) :
      Run Simplifier Unit).Fares simplifier (fun _ after => after.AtRest) failed := by
  obtain ⟨trail, set⟩ : ∃ trail, simplifier.engine.trail.setFlag name .frozen on = some trail := by
    simp [Trail.setFlag, Trail.modify?, inside]
  have switches := Trail.switches_of_setFlag set
  have continues : simplifier.engine.trail.Continues trail := Trail.continues_modify set
  have levels : trail.levels = simplifier.engine.trail.levels := by
    rw [(Trail.vars_modify? set).1]
  have ended : Engine.updateTrail (fun trail => trail.setFlag name .frozen on) simplifier.engine =
      .done () { simplifier.engine with trail := trail } := by
    simp [Engine.updateTrail, Run.update, set]
  refine .of_done (lift_of_done ended) ⟨rest.idle, ?_, levels.trans rest.trail.atRoot, ?_,
    switches.removed ▸ rest.trail.kept⟩
  · exact rest.spans.endures (.of_trail continues) rest.spans.heap
  · change trail.facts = trail.literals.toList
    rw [switches.facts, switches.literals]
    exact rest.trail.orderly

/-- Freezing a variable leaves the simplifier at rest. -/
theorem freeze_fares (name : Nat) (rest : simplifier.AtRest)
    (sound : simplifier.engine.trail.Sound) :
    (freeze name).Fares simplifier (fun _ after => after.AtRest) fun _ after => after.AtRest := by
  unfold freeze
  refine .step rfl ?_
  split
  · exact .fail rest
  next inRange =>
    simp only [Bool.or_eq_true, decide_eq_true_eq, not_or, Nat.not_lt] at inRange
    obtain ⟨nonzero, known⟩ := inRange
    have inside : name < simplifier.engine.trail.vars.size :=
      Trail.lt_of_le_numVars sound.nonempty known
    have isName : (Literal.ofVar name true).var = name := by
      have small := sound.small
      exact Literal.var_ofVar (Nat.pos_of_ne_zero nonzero) (by simp only [UInt32.size]; omega)
    refine (checkPresent_fares rest (isName.symm ▸ inside)).bind ?_
    rintro _ _ ⟨rest, rfl⟩
    exact rest.setFlag_fares inside

/-- Unfreezing a variable leaves the simplifier at rest. -/
theorem unfreeze_fares (name : Nat) (rest : simplifier.AtRest)
    (sound : simplifier.engine.trail.Sound) :
    (unfreeze name).Fares simplifier (fun _ after => after.AtRest) fun _ after => after.AtRest := by
  unfold unfreeze
  refine .step rfl ?_
  split
  · exact .fail rest
  next inRange =>
    simp only [Bool.or_eq_true, decide_eq_true_eq, not_or, Nat.not_lt] at inRange
    exact rest.setFlag_fares (Trail.lt_of_le_numVars sound.nonempty inRange.2)

/-! ## Runs and calls -/

/-- A run of a simplifier that is standing and at rest can lack nothing but names. -/
theorem run_rests_fares {inprocessing : Bool} (standing : simplifier.Standing records)
    (rest : simplifier.AtRest) :
    (run inprocessing).Fares simplifier (fun _ after => after.AtRest) fun _ _ => False := by
  let _ : Realm := .within simplifier.engine.picture.Appears
  cases closed : simplifier.engine.unsat with
  | true =>
    exact .of_done (run_of_closed closed) ⟨rest.idle, rest.spans, rest.trail⟩
  | false =>
    have fit := standing.fit closed
    have poised : simplifier.Poised := ⟨rest.spans, rest.idle.current _⟩
    have idles : (run inprocessing).Ends simplifier _ _ := run_idle rest.idle
    refine (((run_fares fit poised).and_ends (run_ends fit)).and_ends idles).imp ?_
      fun _ _ held => held.1.2
    rintro status after ⟨⟨spans, _, ended⟩, idle⟩
    have atRoot := (inStep_of_ended ended).trail.atRoot
    refine ⟨idle, spans, ?_⟩
    rcases ended with ⟨leads, _⟩ | ⟨refutes, _⟩
    · exact ⟨atRoot, leads.orderly rest.trail.orderly, leads.steps.kept_zero rest.trail.kept⟩
    · obtain ⟨_, reached⟩ := refutes.reached
      exact ⟨atRoot, refutes.goes.orderly rest.trail.orderly, reached.kept_zero rest.trail.kept⟩

/-- A call can lack nothing but names. -/
theorem Call.perform_fares (call : Call) (standing : before.Standing records)
    (rest : before.AtRest) :
    call.perform.attempt.Fares before (fun _ after => after.AtRest) fun _ _ => False := by
  have sane := standing.sane
  -- Whatever the answer, what was asked for left the simplifier at rest.
  have answers : ∀ {α : Type} {body : Run Simplifier α} (value : Option Status),
      body.Fares before (fun _ after => after.AtRest) (fun _ after => after.AtRest) →
      (do
        let _ ← body
        return value : Run Simplifier (Option Status)).attempt.Fares before
        (fun _ after => after.AtRest) fun _ _ => False :=
    fun _ fares => .attempt (fares.bind fun _ _ rest => .pure rest)
  cases call with
  | newVar =>
    refine answers none ((newVar_fares rest sane.trail.nonempty).imp ?_ fun _ _ => id)
    exact fun _ _ held => held.1
  | addClause clause => exact answers none (addClause_fares clause rest sane.toInStep)
  | freeze name => exact answers none (freeze_fares name rest sane.trail)
  | unfreeze name => exact answers none (unfreeze_fares name rest sane.trail)
  | interrupt on =>
    exact .attempt (.step rfl (.pure ⟨rest.idle, rest.spans.of_aside rfl rfl, rest.trail⟩))
  | proof on =>
    exact .attempt (.step rfl (.pure ⟨rest.idle, rest.spans.of_aside rfl rfl, rest.trail⟩))
  | run inprocessing =>
    refine .attempt ((run_rests_fares standing rest).imp (fun _ _ => id) ?_ |>.bind
      fun _ _ rest => .pure rest)
    exact fun _ _ impossible => impossible.elim

end Simplifier

end CnfSimplifier
