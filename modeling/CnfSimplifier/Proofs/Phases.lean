import CnfSimplifier.Proofs.ComposedTechniques

/-!
# Suggested phases

Changes of clauses leave the suggested values of the variables alone, and so does the
assignment of a literal, whether it is accepted or refused. So having the same phases is
a tolerant relation.
-/
namespace CnfSimplifier

/-- The suggested value of a variable. -/
def Trail.phase? (trail : Trail) (name : Nat) : Option Bool :=
  (trail.vars[name]?).bind VarState.phase

/-- The suggested phases are the same. -/
def Engine.SamePhases (before after : Engine) : Prop :=
  ∀ name, after.trail.phase? name = before.trail.phase? name

theorem Engine.SamePhases.refl (engine : Engine) : engine.SamePhases engine := fun _ => rfl

theorem Engine.SamePhases.trans {before middle after : Engine} (first : before.SamePhases middle)
    (second : middle.SamePhases after) : before.SamePhases after :=
  fun name => (second name).trans (first name)

/-! ## Assignments -/

namespace Trail

variable {trail after : Trail}

/-- A change of a variable may keep its phase. -/
theorem phase?_modify? {name : Nat} {change : VarState → VarState}
    (changed : trail.modify? name change = some after)
    (keeps : ∀ state, (change state).phase = state.phase) (other : Nat) :
    after.phase? other = trail.phase? other := by
  obtain ⟨same, _⟩ := vars_modify? changed
  subst same
  unfold phase?
  rw [Array.getElem?_modify]
  split
  · cases trail.vars[other]? with
    | none => rfl
    | some state => exact keeps state
  · rfl

/-- Taking values back keeps the phases. -/
theorem phase?_unassign (literals : List Literal)
    (unassigned : trail.unassign literals = some after) (other : Nat) :
    after.phase? other = trail.phase? other := by
  induction literals generalizing trail with
  | nil =>
    cases unassigned
    rfl
  | cons literal rest ih =>
    obtain ⟨middle, changed, further⟩ := Option.bind_eq_some_iff.1 unassigned
    rw [ih further, phase?_modify? changed (fun _ => rfl)]

/-- Cancelling levels keeps the phases. -/
theorem phase?_cancelUntil {level : Nat} (cancelled : trail.cancelUntil level = some after)
    (other : Nat) : after.phase? other = trail.phase? other := by
  unfold cancelUntil at cancelled
  split at cancelled
  · cases cancelled
    rfl
  · obtain ⟨middle, unassigned, same⟩ := Option.bind_eq_some_iff.1 cancelled
    cases same
    exact (phase?_unassign _ unassigned other : middle.phase? other = _)

/-- Assigning a literal keeps the phases. -/
theorem phase?_push {literal : Literal} {level : Nat} (pushed : trail.push literal level = some after)
    (other : Nat) : after.phase? other = trail.phase? other := by
  obtain ⟨middle, changed, same⟩ := Option.bind_eq_some_iff.1 pushed
  cases same
  exact (phase?_modify? changed (fun _ => rfl) other : middle.phase? other = _)

/-- Whether a literal is accepted at the root or refused, the phases stay. -/
theorem assignAtRoot_keepsPhases (literal : Literal) (trail : Trail) :
    (assignAtRoot literal).Ends trail (fun _ after => ∀ name, after.phase? name = trail.phase? name)
      fun _ after => ∀ name, after.phase? name = trail.phase? name := by
  unfold assignAtRoot
  refine .seq (.update fun cancelled closes => .step rfl ?_)
  have same := phase?_cancelUntil closes
  split
  · exact .fail same
  refine Run.Looks.access.bind fun value _ => ?_
  split
  · exact .update fun after pushed name => (phase?_push pushed name).trans (same name)
  · split
    · exact .pure same
    · exact .fail same

/-- Another phase is given to one variable. -/
theorem phase?_setPhase {name : Nat} {phase : Bool} (changed : trail.setPhase name phase = some after)
    (other : Nat) : after.phase? other = if other = name then some phase else trail.phase? other := by
  obtain ⟨same, inside⟩ := vars_modify? changed
  subst same
  unfold phase?
  rw [Array.getElem?_modify]
  by_cases own : name = other
  · subst own
    rw [if_pos rfl, if_pos rfl, Array.getElem?_eq_getElem inside]
    rfl
  · rw [if_neg own, if_neg (Ne.symm own)]

end Trail

/-- Phases are none of the clauses' business, and no assignment changes them. -/
instance : TolerantOfMarks Engine.SamePhases :=
  .of_shrinks .refl .trans (fun _ trail _ name => by rw [trail]) (fun _ _ => rfl)
    fun engine literal => Trail.assignAtRoot_keepsPhases literal engine.trail

end CnfSimplifier
