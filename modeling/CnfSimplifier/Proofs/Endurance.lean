import CnfSimplifier.Proofs.Growth
import CnfSimplifier.Proofs.HandleHistory
import CnfSimplifier.Proofs.Propagation

/-!
# What lasts through techniques

Between two compactions handles stay what they are: no technique starts a new epoch or
gives a slot to another clause. The number of variables stays the same as well, propagation
does not run past the end of the trail, and a clause that is stored is over variables that
there are, whether it is alive or dead. Nothing is asked about the state in which a technique
begins, and the formula may be refuted on the way.
-/
namespace CnfSimplifier

namespace Trail

variable {trail middle after : Trail} {literal : Literal} {level : Nat}

/-- A trail over the same variables. What is to be propagated is on the trail if it was. -/
structure Continues (trail after : Trail) : Prop where
  vars : after.vars.size = trail.vars.size
  head : trail.head ≤ trail.literals.size → after.head ≤ after.literals.size

theorem Continues.refl (trail : Trail) : trail.Continues trail := ⟨rfl, id⟩

theorem Continues.trans (first : trail.Continues middle) (second : middle.Continues after) :
    trail.Continues after :=
  ⟨second.vars.trans first.vars, fun head => second.head (first.head head)⟩

theorem continues_push (pushed : trail.push literal level = some after) :
    trail.Continues after := by
  obtain ⟨_, literals, _, head⟩ := push_eq_some pushed
  refine ⟨(sameFlags_push pushed).size, fun inside => ?_⟩
  rw [literals, head, Array.size_push]
  exact Nat.le_succ_of_le inside

theorem continues_modify {name : Nat} {change : VarState → VarState}
    (changed : trail.modify? name change = some after) : trail.Continues after := by
  obtain ⟨rfl, _⟩ := vars_modify? changed
  exact ⟨Array.size_modify, id⟩

/-- Taking values back leaves the variables there. -/
theorem continues_unassign {literals : List Literal}
    (undone : trail.unassign literals = some after) : trail.Continues after := by
  induction literals generalizing trail with
  | nil =>
    obtain rfl : trail = after := by simpa [unassign] using undone
    exact .refl _
  | cons literal rest ih =>
    obtain ⟨middle, changed, further⟩ := Option.bind_eq_some_iff.1 undone
    exact (continues_modify changed).trans (ih further)

/-- Cancelling levels leaves a trail over the same variables. -/
theorem continues_cancelUntil (cancelled : trail.cancelUntil level = some after) :
    trail.Continues after := by
  unfold cancelUntil at cancelled
  split at cancelled
  next =>
    obtain rfl : trail = after := by simpa using cancelled
    exact .refl _
  next start _ =>
    obtain ⟨middle, undone, rfl⟩ := by simpa [Option.bind_eq_some_iff] using cancelled
    obtain ⟨vars, head⟩ := continues_unassign undone
    refine ⟨vars, fun inside => ?_⟩
    have inside := head inside
    simp only [Array.size_extract]
    omega

theorem continues_openLevel (opened : trail.openLevel literal = some after) :
    trail.Continues after :=
  let opening : Trail := { trail with levels := trail.levels.push trail.literals.size }
  have pushed : opening.push literal opening.level = some after := opened
  ⟨(continues_push pushed).vars, (continues_push pushed).head⟩

/-- So does an assignment at the root. -/
theorem assignAtRoot_continues : (assignAtRoot literal).Ends trail
    (fun _ after => trail.Continues after) fun _ after => trail.Continues after := by
  have closes : (Run.update fun trail : Trail => trail.cancelUntil 0).Ends trail
      (fun _ after => trail.Continues after) fun _ after => trail.Continues after :=
    .update fun middle cancelled => continues_cancelUntil cancelled
  refine closes.bind fun _ middle sofar => .step rfl ?_
  split
  · exact .fail sofar
  refine Run.Looks.access.bind fun value _ => ?_
  split
  · exact .update fun after pushed => sofar.trans (continues_push pushed)
  · split
    · exact .pure sofar
    · exact .fail sofar

/-- Propagation gives values to variables that there are, and stops at the end. -/
theorem propagate_continues {arena : Arena} {index : Occurrences} :
    (propagate arena index).Ends trail (fun _ after => trail.Continues after) fun _ _ => False := by
  have kept : KeptByUnits arena trail.Continues :=
    fun _ _ _ _ _ sofar _ _ _ _ pushed => sofar.trans (continues_push pushed)
  exact (propagate_keeps (fun _ _ inside sofar => ⟨sofar.vars, fun _ => inside⟩) kept (.refl _)).imp
    (fun _ _ => And.left) fun _ _ => id

end Trail

namespace Engine

variable {engine before middle after : Engine}

/-- A literal of a variable of the engine. -/
def Owns (engine : Engine) (literal : Literal) : Prop :=
  0 < literal.var ∧ literal.var < engine.trail.vars.size

/-- Whatever is in a slot, alive or dead, is over the variables of the engine. -/
def Ranged (engine : Engine) : Prop :=
  ∀ (slot : Nat) (clause : Clause), engine.arena.slots[slot]? = some clause →
    ∀ literal ∈ clause.literals, engine.Owns literal

/-- Clauses stay in their slots, and no variable comes or goes. -/
structure Endures (before after : Engine) : Prop where
  arena : LabelledArena.Narrows before.arena after.arena
  trail : before.trail.Continues after.trail
  ranged : before.Ranged → after.Ranged

theorem Endures.numVars (endures : before.Endures after) :
    after.trail.vars.size = before.trail.vars.size := endures.trail.vars

theorem Endures.refl (engine : Engine) : engine.Endures engine := ⟨.refl _, .refl _, id⟩

theorem Endures.trans (first : before.Endures middle) (second : middle.Endures after) :
    before.Endures after :=
  ⟨first.arena.trans second.arena, first.trail.trans second.trail,
    fun ranged => second.ranged (first.ranged ranged)⟩

theorem Endures.owns (endures : before.Endures after) {literal : Literal} :
    after.Owns literal ↔ before.Owns literal := by
  unfold Owns
  rw [endures.numVars]

/-- Only the arena and the trail matter. -/
theorem Endures.of_continues (arena : after.arena = before.arena)
    (trail : before.trail.Continues after.trail) : before.Endures after := by
  refine ⟨arena ▸ .refl _, trail, fun ranged slot clause found literal inside => ?_⟩
  unfold Owns
  rw [trail.vars]
  exact ranged slot clause (arena ▸ found) literal inside

theorem Endures.of_aside (arena : after.arena = before.arena) (trail : after.trail = before.trail) :
    before.Endures after := .of_continues arena (trail ▸ .refl _)

/-- Clauses may lose literals. -/
theorem Endures.of_narrows (narrows : LabelledArena.Narrows before.arena after.arena)
    (size : after.arena.slots.size = before.arena.slots.size) (trail : after.trail = before.trail) :
    before.Endures after := by
  refine ⟨narrows, trail ▸ .refl _, fun ranged slot clause found literal inside => ?_⟩
  unfold Owns
  rw [trail]
  have inSlot : slot < before.arena.slots.size := size ▸ (Array.getElem?_eq_some_iff.1 found).1
  obtain ⟨copy, again, shorter⟩ :=
    narrows.clauses slot _ (Array.getElem?_eq_getElem inSlot)
  obtain rfl : clause = copy := Option.some.inj (found.symm.trans again)
  exact ranged slot _ (Array.getElem?_eq_getElem inSlot) literal (shorter.subset inside)

/-- A clause over the variables of the engine may be added. -/
theorem Endures.of_push {literals : List Literal} {redundant : Bool}
    (owns : ∀ literal ∈ literals, before.Owns literal)
    (slots : after.arena.slots = before.arena.slots.push (Clause.ofLiterals literals redundant))
    (epoch : after.arena.epoch = before.arena.epoch) (trail : after.trail = before.trail) :
    before.Endures after := by
  refine ⟨.of_push slots epoch, trail ▸ .refl _, fun ranged slot clause found literal inside => ?_⟩
  unfold Owns
  rw [trail]
  rw [slots, Array.getElem?_push] at found
  split at found
  · cases found
    exact owns literal (mem_sortedLiterals.1 inside)
  · exact ranged slot clause found literal inside

/-- The arena may take up a clause over the variables of the engine. -/
theorem Endures.of_insert {literals : List Literal} {redundant : Bool}
    (owns : ∀ literal ∈ literals, engine.Owns literal) :
    engine.Endures { engine with arena := (engine.arena.insert literals redundant).2 } :=
  .of_push owns rfl rfl rfl

/-- What a handle of a clause named is there still. -/
theorem Endures.exists_get? (endures : before.Endures after) {handle : Handle} {clause : Clause}
    (found : before.arena.get? handle = some clause) :
    ∃ copy, after.arena.get? handle = some copy ∧ copy.literals.Sublist clause.literals := by
  obtain ⟨current, inSlot⟩ := Arena.get?_eq_some.1 found
  obtain ⟨copy, again, shorter⟩ := endures.arena.clauses _ clause inSlot
  exact ⟨copy, Arena.get?_eq_some.2 ⟨current.trans endures.arena.epoch.symm, again⟩, shorter⟩

theorem Endures.of_trail {trail : Trail} (continues : engine.trail.Continues trail) :
    engine.Endures { engine with trail := trail } := .of_continues rfl continues

instance : TolerantOfMarks Endures where
  refl := .refl
  trans := .trans
  aside arena trail _ := .of_aside arena trail
  removes {engine handle arena} removed := by
    cases found : engine.arena.get? handle with
    | none =>
      rw [Arena.remove, found] at removed
      cases removed
    | some clause =>
      obtain ⟨narrows, size⟩ := LabelledArena.narrows_remove found removed
      exact .of_narrows narrows size rfl
  strengthens {engine handle literal length arena} changed := by
    cases found : engine.arena.get? handle with
    | none =>
      rw [Arena.strengthen, found] at changed
      cases changed
    | some clause =>
      obtain ⟨narrows, size⟩ := LabelledArena.narrows_strengthen found changed
      exact .of_narrows narrows size rfl
  promotes promoted := by
    obtain ⟨narrows, size⟩ := LabelledArena.narrows_makeIrredundant promoted
    exact .of_narrows narrows size rfl
  assigns _ _ := Trail.assignAtRoot_continues.imp (fun _ _ => .of_trail) fun _ _ => .of_trail
  marks _ marked := by
    obtain ⟨narrows, size⟩ := LabelledArena.narrows_mark marked
    exact .of_narrows narrows size rfl

end Engine

/-! ## Operations of the engine -/

/-- However the computation ends, clauses are in their slots still. -/
abbrev Lasts {σ α : Type} [HasEngine σ] (body : Run σ α) : Prop := Tracks Engine.Endures body

namespace Engine

variable {engine : Engine} {literal : Literal} {handle : Handle} {literals : List Literal}

theorem lasts_updateTrail {change : Trail → Option Trail}
    (keeps : ∀ trail after, change trail = some after → trail.Continues after) :
    Lasts (updateTrail change) :=
  fun _ => updateTrail_ends fun _ changed => .of_trail (keeps _ _ changed)

theorem lasts_setPhase {name : Nat} {phase : Bool} :
    Lasts (updateTrail fun trail => trail.setPhase name phase) :=
  lasts_updateTrail fun _ _ => Trail.continues_modify

theorem lasts_cancelToRoot : Lasts cancelToRoot :=
  lasts_updateTrail fun _ _ => Trail.continues_cancelUntil

theorem lasts_openLevel : Lasts (updateTrail fun trail => trail.openLevel literal) :=
  lasts_updateTrail fun _ _ => Trail.continues_openLevel

theorem lasts_propagate : Lasts (onTrail Trail.propagate) := fun _ =>
  .within (onTrail_apply _ _) (Trail.propagate_continues.imp (fun _ _ => .of_trail)
    fun _ _ => False.elim)

/-- So does propagation at the root. -/
theorem lasts_propagateAtRoot : Lasts (onTrail Trail.propagateAtRoot) := by
  have same : onTrail Trail.propagateAtRoot = (do
      if (← onTrail Trail.propagate).isSome then Run.fail .inconsistent
      else pure ()) := by
    funext engine
    simp only [onTrail_apply, Trail.propagateAtRoot, Run.bind_apply]
    cases Trail.propagate engine.arena engine.index engine.trail with
    | done conflict trail => cases conflict <;> rfl
    | failed cause trail => rfl
    | stuck why => rfl
  rw [same]
  refine .bind lasts_propagate fun conflict => ?_
  split
  · exact .fail
  · exact .pure

/-- The literals of a clause that is not refused are of variables of the engine. -/
theorem owns_of_inRange
    (inRange : (literals.any fun l => engine.numVars < l.var || l.var == 0) = false) :
    ∀ literal ∈ sortedLiterals literals, engine.Owns literal := by
  intro literal member
  have fine : ¬ (engine.numVars < literal.var ∨ literal.var = 0) := by
    simpa using List.any_eq_false.1 inRange literal (mem_sortedLiterals.1 member)
  unfold numVars Trail.numVars at fine
  exact ⟨by omega, by omega⟩

/-- Storing a clause keeps to a relation if the insertion of a clause over the variables of
the engine does. -/
theorem tracks_storeClause {relation : Engine → Engine → Prop} [tolerant : Tolerant relation]
    (inserts : ∀ {engine : Engine} {literals : List Literal} {redundant : Bool},
      (∀ literal ∈ literals, engine.Owns literal) →
        relation engine { engine with arena := (engine.arena.insert literals redundant).2 })
    {redundant derived : Bool} : Tracks relation (storeClause literals redundant derived) := by
  intro engine
  unfold storeClause
  refine .step rfl ?_
  split
  next => exact .fail (tolerant.refl engine)
  next inRange =>
  have owns := owns_of_inRange (Bool.eq_false_iff.2 inRange)
  dsimp only
  split
  · exact .pure (tolerant.refl engine)
  refine Run.Looks.access.bind fun satisfied _ => ?_
  split
  · exact .pure (tolerant.refl engine)
  refine Run.Looks.access.bind fun remaining opened => ?_
  -- A derived clause is proved before it is stored, and the proof is no part of the trail.
  have stores : ∀ before : Engine, before.trail = engine.trail → relation engine before → (do
      let handle ← insertClause remaining redundant
      let stored ← clause handle
      updateIndex fun index => index.add handle stored.literals
      touch
      return some handle).Ends before (fun _ after => relation engine after)
        fun _ after => relation engine after := by
    intro before same sofar
    have owned : ∀ literal ∈ remaining, before.Owns literal := by
      intro literal member
      unfold Owns
      rw [same]
      exact owns literal ((openLiterals?_spec opened).1.subset member)
    have rest : Tracks relation (do
        let stored ← clause (before.arena.handleAt before.arena.slots.size)
        updateIndex fun index => index.add (before.arena.handleAt before.arena.slots.size) stored.literals
        touch
        return some (before.arena.handleAt before.arena.slots.size)) :=
      .after leaves_clause fun _ =>
        .bind (tracks_updateIndex) fun _ => .bind (tracks_touch) fun _ => .pure
    by_cases room : before.arena.slots.size + 1 < UInt32.size
    · have inserted : relation engine
          { before with arena := (before.arena.insert remaining redundant).2 } :=
        tolerant.trans sofar (inserts owned)
      exact .step (if_pos room) ((rest _).imp (fun _ _ => tolerant.trans inserted)
        fun _ _ => tolerant.trans inserted)
    · exact .of_stuck (Run.bind_of_stuck (if_neg room))
  split
  · exact .fail (tolerant.refl engine)
  · exact Tracks.bind (tracks_assignUnit) (fun _ => .pure) engine
  · split
    · exact .step rfl (stores _ rfl (tolerant.aside rfl rfl rfl))
    · exact stores engine rfl (tolerant.refl engine)

/-- A clause is stored only if its variables are there. -/
theorem lasts_storeClause {redundant derived : Bool} :
    Lasts (storeClause literals redundant derived) := tracks_storeClause .of_insert

/-- A variable that is removed keeps its place. -/
theorem lasts_handle_removed {name : Nat} {event : Event}
    (goes : event = .eliminated name ∨ event = .substituted name) : Lasts (Engine.handle event) := by
  have retires : Lasts (updateTrail fun trail => trail.handle event) := by
    refine lasts_updateTrail fun trail after changed => ?_
    rcases goes with rfl | rfl
    all_goals
      simp only [Trail.handle, Option.bind_eq_bind, Option.bind_eq_some_iff, Option.pure_def,
        Option.some.injEq] at changed
      obtain ⟨middle, flagged, rfl⟩ := changed
      obtain ⟨vars, head⟩ := Trail.continues_modify flagged
      exact ⟨vars, head⟩
  rcases goes with rfl | rfl <;> exact .bind retires fun _ => tracks_touch

end Engine

/-! ## Techniques -/

theorem Equivalence.lasts_retire {literal representative : Literal} :
    Lasts (retire literal representative) :=
  .bind Engine.tracks_pushRecord fun _ => .bind Engine.tracks_pushRecord fun _ =>
    .bind (Engine.lasts_handle_removed (.inr rfl)) fun _ => Engine.tracks_count

instance : UpheldByTechniques Engine.Endures where
  storeClause := Engine.lasts_storeClause
  setPhase := Engine.lasts_setPhase
  retire := Equivalence.lasts_retire
  eliminated := Engine.lasts_handle_removed (.inl rfl)

theorem Units.lasts_process : Lasts process :=
  .after Work.leaves_beginRun fun _ => .bind (.lift Engine.lasts_cancelToRoot) fun _ =>
    .after (.lift Engine.leaves_look) fun _ =>
    .bind (.lift (Tracks.attempt Engine.tracks_propagateUnits)) fun _ =>
    .after (.lift Engine.leaves_look) fun _ =>
    .bind (.lift Engine.tracks_tell) fun _ => .lift Engine.tracks_conclude

namespace Probing

theorem lasts_announce (literals : List Literal) : Lasts (announce literals) := by
  induction literals with
  | nil => exact .pure
  | cons literal rest ih =>
    exact .bind Engine.tracks_prove fun _ => .bind Engine.tracks_count fun _ =>
      .bind Engine.tracks_touch fun _ => ih

/-- Settling the root leaves variables and handles there. -/
theorem lasts_settleRoot : Lasts settleRoot := by
  refine .bind Engine.tracks_propagateUnits fun _ => .after Engine.leaves_look fun _ =>
    .bind Engine.lasts_propagateAtRoot fun _ => .after Engine.leaves_look fun new => ?_
  split
  · exact .pure
  · exact .bind (lasts_announce _) fun _ => Engine.tracks_propagateUnits

/-- A probe leaves variables and handles there. -/
theorem lasts_probe {literal : Literal} : Lasts (probe literal) := by
  refine .bind (.lift lasts_settleRoot) fun _ => .after (.lift Engine.leaves_look) fun _ =>
    .bind (.lift Engine.lasts_openLevel) fun _ => .bind (.lift Engine.lasts_propagate) fun conflict =>
    .after (.lift Engine.leaves_look) fun _ => .after Work.leaves_spend fun _ =>
    .bind (.lift Engine.lasts_cancelToRoot) fun _ => ?_
  split
  · exact made_refute.tracks
  · exact .pure

theorem lasts_probeVar {name : Nat} : Lasts (probeVar name) := by
  refine .bind lasts_probe fun fromPositive => ?_
  split
  · exact .pure
  · refine .bind lasts_probe fun fromNegative => ?_
    split
    · exact .pure
    · exact made_necessary.tracks

/-- So does probing all variables. -/
theorem lasts_probeAll (names : List Nat) : Lasts (probeAll names) := by
  induction names with
  | nil => exact .pure
  | cons name rest ih =>
    refine .after Work.leaves_spend fun goOn => ?_
    split
    · refine .after .read fun value => ?_
      split
      · exact .bind lasts_probeVar fun _ => ih
      · exact ih
    · exact .pure

theorem lasts_process : Lasts process :=
  Work.tracks_process (Work.tracks_tidied
    (.bind (.lift Engine.lasts_cancelToRoot) fun _ => .bind (.lift Engine.tracks_propagateUnits)
      fun _ => .bind (.lift Engine.tracks_implications) fun _ =>
      .after (.lift Engine.leaves_look) fun _ => .after .access fun _ =>
      lasts_probeAll _) (Tracks.lift Engine.lasts_cancelToRoot))

end Probing

end CnfSimplifier
