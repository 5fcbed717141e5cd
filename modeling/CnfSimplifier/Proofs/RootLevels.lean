import CnfSimplifier.Proofs.Propagation
import CnfSimplifier.Proofs.ComposedTechniques

/-!
# Values that were given at the root

Every value is given at a level. Closing all levels takes back what was given above the
root, so that a variable has a value afterwards only if it had it before the first level
was opened. Whatever an operation does in between, it leaves behind the values that
were there and values that it gave at the root.
-/
namespace CnfSimplifier

namespace Trail

variable {before middle after start trail : Trail} {literal : Literal} {level : Nat}

/-- Every value was there before, or was given at the root. -/
def GivenAtRoot (before after : Trail) : Prop :=
  ∀ (name : Nat) (state : VarState), after.vars[name]? = some state → state.value.isSome = true →
    before.vars[name]? = some state ∨ state.level = 0

theorem GivenAtRoot.refl (trail : Trail) : GivenAtRoot trail trail := fun _ _ found _ => .inl found

theorem GivenAtRoot.trans (first : GivenAtRoot before middle) (second : GivenAtRoot middle after) :
    GivenAtRoot before after := fun name state found hasValue =>
  (second name state found hasValue).elim (fun earlier => first name state earlier hasValue) .inr

/-- What is pushed at the root is given at the root. -/
theorem GivenAtRoot.push (pushed : trail.push literal 0 = some after) : GivenAtRoot trail after := by
  intro name state found _
  rw [(push_eq_some pushed).1, Array.getElem?_modify] at found
  split at found
  · obtain ⟨old, _, rfl⟩ := Option.map_eq_some_iff.1 found
    exact .inr rfl
  · exact .inl found

/-- Values that are taken back are gone, and nothing else changes. -/
theorem vars_unassign {literals : List Literal} (undone : trail.unassign literals = some after)
    (name : Nat) : after.vars[name]? =
      if name ∈ literals.map Literal.var
      then (trail.vars[name]?).map fun state => { state with value := none }
      else trail.vars[name]? := by
  induction literals generalizing trail with
  | nil =>
    obtain rfl : trail = after := by simpa [unassign] using undone
    simp
  | cons literal rest ih =>
    obtain ⟨middle, others, _, _, _, vars⟩ := unassign_cons undone
    rw [ih others, vars, Array.getElem?_modify]
    by_cases same : literal.var = name
    · by_cases later : name ∈ rest.map Literal.var <;>
        simp [same, Option.map_map, Function.comp_def]
    · simp [same, Ne.symm same]

/-- Closing levels gives no value. -/
theorem vars_cancelUntil (cancelled : trail.cancelUntil level = some after) {name : Nat}
    {state : VarState} (found : after.vars[name]? = some state) (hasValue : state.value.isSome = true) :
    trail.vars[name]? = some state ∧ ∀ place, trail.levels[level]? = some place →
      name ∉ (trail.literals.toList.drop place).map Literal.var := by
  unfold cancelUntil at cancelled
  split at cancelled
  next none_ =>
    obtain rfl : trail = after := by simpa using cancelled
    exact ⟨found, fun place isPlace => nomatch none_.symm.trans isPlace⟩
  next place isPlace =>
    obtain ⟨middle, undone, rfl⟩ := by simpa [Option.bind_eq_some_iff] using cancelled
    change middle.vars[name]? = some state at found
    rw [vars_unassign undone] at found
    split at found
    · obtain ⟨old, _, rfl⟩ := Option.map_eq_some_iff.1 found
      cases hasValue
    next outside =>
      refine ⟨found, fun other isOther => ?_⟩
      rwa [← Option.some.inj (isPlace.symm.trans isOther)]

/-- An assignment at the root is given there. -/
theorem givenAtRoot_assignAtRoot : (assignAtRoot literal).Ends trail
    (fun _ after => GivenAtRoot trail after) fun _ after => GivenAtRoot trail after := by
  unfold assignAtRoot
  refine .seq (.update fun closed cancelled => ?_)
  have kept : GivenAtRoot trail closed := fun _ _ found hasValue =>
    .inl (vars_cancelUntil cancelled found hasValue).1
  refine .step rfl ?_
  split
  · exact .fail kept
  refine Run.Looks.access.bind fun value _ => ?_
  cases value with
  | none => exact .update fun after pushed => kept.trans (.push pushed)
  | some sign =>
    dsimp only
    split
    · exact .pure kept
    · exact .fail kept

/-! ## Above the root -/

/-- Literals were added at the end, and only their variables changed. -/
def Extends (start trail : Trail) : Prop :=
  ∃ new, trail.literals.toList = start.literals.toList ++ new ∧
    ∀ name : Nat, name ∉ new.map Literal.var → trail.vars[name]? = start.vars[name]?

/-- A pushed literal extends the trail. -/
theorem Extends.push (extends_ : Extends start trail) (pushed : trail.push literal level = some after) :
    Extends start after := by
  obtain ⟨vars, literals, _, _⟩ := push_eq_some pushed
  obtain ⟨new, appended, others⟩ := extends_
  refine ⟨new ++ [literal], ?_, fun name absent => ?_⟩
  · rw [literals, Array.toList_push, appended, List.append_assoc]
  · simp only [List.map_append, List.map_cons, List.map_nil, List.mem_append, List.mem_singleton,
      not_or] at absent
    rw [vars, Array.getElem?_modify, if_neg (Ne.symm absent.2)]
    exact others name absent.1

/-- Propagation adds literals at the end. -/
theorem propagate_extends {arena : Arena} {index : Occurrences} (extends_ : Extends start trail) :
    (propagate arena index).Ends trail (fun _ after => Extends start after) fun _ _ => False := by
  have kept : KeptByUnits arena (Extends start) :=
    fun _ _ _ _ _ extends_ _ _ _ _ pushed => extends_.push pushed
  exact (propagate_keeps (fun _ _ _ extends_ => extends_) kept extends_).imp
    (fun _ _ => And.left) fun _ _ no => no

/-- Closing the level that was opened first leaves no value of it. -/
theorem Extends.cancelUntil (extends_ : Extends start trail)
    (levels : trail.levels = #[start.literals.toList.length])
    (cancelled : trail.cancelUntil 0 = some after) : GivenAtRoot start after := by
  intro name state found hasValue
  obtain ⟨earlier, outside⟩ := vars_cancelUntil cancelled found hasValue
  obtain ⟨new, appended, others⟩ := extends_
  have notNew : name ∉ new.map Literal.var := by
    have dropped := outside start.literals.toList.length (by rw [levels]; rfl)
    rwa [appended, List.drop_left] at dropped
  rw [others name notNew] at earlier
  exact .inl earlier

end Trail

/-! ## Operations of the engine -/

/-- Every value was there before, or was given at the root. -/
def Engine.GivenAtRoot (before after : Engine) : Prop := before.trail.GivenAtRoot after.trail

instance : Tolerant Engine.GivenAtRoot where
  refl engine := .refl engine.trail
  trans := Trail.GivenAtRoot.trans
  aside _ trail _ := by
    unfold Engine.GivenAtRoot
    rw [trail]
    exact .refl _
  removes _ := .refl _
  strengthens _ := .refl _
  promotes _ := .refl _
  assigns _ _ := Trail.givenAtRoot_assignAtRoot

end CnfSimplifier
