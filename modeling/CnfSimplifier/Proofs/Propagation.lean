import CnfSimplifier.Proofs.RootPropagation

/-!
# Propagation on the trail

What the trail holds after an assumption was propagated follows from the formula
and the assumption by unit propagation, and a falsified clause is a conflict.
Closing the level takes everything back: values and trail agree again at the root.
-/
namespace CnfSimplifier

namespace Trail

variable {trail after start : Trail} {literal : Literal} {arena : Arena} {index : Occurrences}
  {literals : List Literal} {root new : List Literal}

/-! ## The standing of a clause -/

/-- The only free literal of a clause, with the free literal met before. -/
theorem standing?_unit {free : Option Literal} {unit : Literal}
    (found : trail.standing? literals free = some (.unit unit)) :
    (free = some unit ∧ ∀ other ∈ literals, trail.literalValue? other = some (some false)) ∨
      (free = none ∧ unit ∈ literals ∧ trail.literalValue? unit = some none ∧
        ∀ other ∈ literals, other ≠ unit → trail.literalValue? other = some (some false)) := by
  induction literals generalizing free with
  | nil =>
    cases free with
    | none => simp [standing?] at found
    | some met =>
      obtain rfl : met = unit := by simpa [standing?] using found
      exact .inl ⟨rfl, by simp⟩
  | cons literal rest ih =>
    unfold standing? at found
    obtain ⟨value, known, decided⟩ := Option.bind_eq_some_iff.1 found
    rcases value with _ | _ | _
    · cases free with
      | none =>
        rcases ih decided with ⟨same, falsified⟩ | ⟨impossible, _⟩
        · obtain rfl : literal = unit := Option.some.inj same
          refine .inr ⟨rfl, List.mem_cons_self, known, fun other member different => ?_⟩
          exact falsified other ((List.mem_cons.1 member).resolve_left different)
        · cases impossible
      | some met => simp at decided
    · rcases ih decided with ⟨same, falsified⟩ | ⟨isNone, member, unassigned, falsified⟩
      · exact .inl ⟨same, List.forall_mem_cons.2 ⟨known, falsified⟩⟩
      · refine .inr ⟨isNone, List.mem_cons_of_mem _ member, unassigned, ?_⟩
        exact List.forall_mem_cons.2 ⟨fun _ => known, falsified⟩
    · simp at decided

/-- A falsified clause has no true and no free literal. -/
theorem standing?_falsified {free : Option Literal}
    (found : trail.standing? literals free = some .falsified) :
    free = none ∧ ∀ other ∈ literals, trail.literalValue? other = some (some false) := by
  induction literals generalizing free with
  | nil =>
    cases free with
    | none => simp
    | some met => simp [standing?] at found
  | cons literal rest ih =>
    unfold standing? at found
    obtain ⟨value, known, decided⟩ := Option.bind_eq_some_iff.1 found
    rcases value with _ | _ | _
    · cases free with
      | none => cases (ih decided).1
      | some met => simp at decided
    · obtain ⟨isNone, falsified⟩ := ih decided
      exact ⟨isNone, List.forall_mem_cons.2 ⟨known, falsified⟩⟩
    · simp at decided

/-! ## What propagation keeps -/

section Invariants

/-- All literals of a live clause are false. -/
def Falsifies (arena : Arena) (trail : Trail) : Prop :=
  ∃ handle clause, arena.live? handle = some clause ∧
    ∀ literal ∈ clause.literals, trail.literalValue? literal = some (some false)

/-- Assigning the last free literal of a live clause keeps something. -/
def KeptByUnits (arena : Arena) (keeps : Trail → Prop) : Prop :=
  ∀ (trail after : Trail) handle clause literal, keeps trail → arena.live? handle = some clause →
    literal ∈ clause.literals → trail.literalValue? literal = some none →
    (∀ other ∈ clause.literals, other ≠ literal →
      trail.literalValue? other = some (some false)) →
    trail.imply literal = some after → keeps after

variable {keeps : Trail → Prop}

/-- A visit of one list keeps what every push keeps. -/
theorem visit_ends {falsified : Literal} {handles : List Handle}
    (moved : ∀ trail head, head ≤ trail.literals.size → keeps trail →
      keeps { trail with head := head })
    (kept : KeptByUnits arena keeps) (now : keeps trail) :
    (visit arena falsified handles).Ends trail (fun conflict after =>
      keeps after ∧ (conflict.isSome = true → Falsifies arena after)) fun _ _ => False := by
  induction handles generalizing trail with
  | nil => exact .pure ⟨now, nofun⟩
  | cons handle rest ih =>
    unfold visit
    split
    next => exact ih now
    next clause found =>
    split
    next => exact ih now
    next alive =>
      rw [Bool.or_eq_true, not_or] at alive
      have live := Arena.live?_of_alive found alive.1
      refine Run.Looks.read.bind fun standing scanned => ?_
      cases standing with
      | settled => exact ih now
      | unit literal =>
        rcases standing?_unit scanned with ⟨impossible, _⟩ | ⟨_, member, unassigned, falsified⟩
        · cases impossible
        refine .seq (.update fun after pushed => ?_)
        exact ih (kept trail after handle clause literal now live member unassigned falsified pushed)
      | falsified =>
        refine .step rfl (.pure ⟨moved _ _ le_rfl now, fun _ => ?_⟩)
        exact ⟨handle, clause, live, (standing?_falsified scanned).2⟩

/-- Propagation keeps what every push keeps. -/
theorem propagateLoop_ends (fuel : Nat)
    (moved : ∀ trail head, head ≤ trail.literals.size → keeps trail →
      keeps { trail with head := head })
    (kept : KeptByUnits arena keeps) (now : keeps trail) :
    (propagateLoop arena index fuel).Ends trail (fun conflict after =>
      keeps after ∧ (conflict.isSome = true → Falsifies arena after)) fun _ _ => False := by
  induction fuel generalizing trail with
  | zero => exact .stop
  | succ fuel ih =>
    unfold propagateLoop
    refine .step rfl ?_
    split
    next => exact .pure ⟨now, nofun⟩
    next literal here =>
      have onTrail : trail.head + 1 ≤ trail.literals.size := (Array.getElem?_eq_some_iff.1 here).1
      refine .step rfl (Run.Looks.access.bind fun handles _ => ?_)
      refine (visit_ends moved kept (moved _ _ onTrail now)).bind fun conflict after
        ⟨stillKept, isConflict⟩ => ?_
      cases conflict with
      | some handle => exact .pure ⟨stillKept, fun _ => isConflict rfl⟩
      | none => exact ih stillKept

/-- What assigning the last free literal of a clause keeps propagation keeps, and it
ends with a conflict only if a clause is falsified. -/
theorem propagate_keeps (moved : ∀ trail head, head ≤ trail.literals.size → keeps trail →
      keeps { trail with head := head })
    (kept : KeptByUnits arena keeps) (now : keeps trail) :
    (propagate arena index).Ends trail (fun conflict after =>
      keeps after ∧ (conflict.isSome = true → Falsifies arena after)) fun _ _ => False := by
  unfold propagate
  exact .step rfl (propagateLoop_ends _ moved kept now)

end Invariants

/-! ## Propagating an assumption -/

section Assumption

variable [Realm]

/-- What is on the trail follows from the formula and an assumption, and was added
at the end. -/
structure Derives (picture : Picture) (assumed : Literal) (start trail : Trail) : Prop where
  agrees : trail.Agrees
  orderly : trail.Orderly
  flags : start.SameFlags trail
  levels : trail.levels = start.levels
  appended : ∃ new, trail.literals.toList = start.literals.toList ++ new ∧
    ∀ literal ∈ new, picture.Present literal.var
  known : ∀ literal ∈ trail.literals.toList, Propagates picture.formula {assumed} literal

variable {picture : Picture} {assumed : Literal}

/-- Of the trail only values, order and marks matter. -/
theorem Derives.of_head {head : Nat} (derives : Derives picture assumed start trail) :
    Derives picture assumed start { trail with head := head } :=
  ⟨derives.agrees, derives.orderly, ⟨derives.flags.size, derives.flags.flags,
    derives.flags.eliminated, derives.flags.substituted⟩, derives.levels, derives.appended,
    derives.known⟩

/-- A literal that follows is assigned. -/
theorem Derives.imply (derives : Derives picture assumed start trail)
    (present : picture.Present literal.var)
    (unassigned : trail.literalValue? literal = some none)
    (follows : Propagates picture.formula {assumed} literal)
    (pushed : trail.imply literal = some after) : Derives picture assumed start after := by
  obtain ⟨_, literals, levels, _⟩ := push_eq_some pushed
  have list : after.literals.toList = trail.literals.toList ++ [literal] := by
    rw [literals, Array.toList_push]
  obtain ⟨new, appended, presentNew⟩ := derives.appended
  refine ⟨derives.agrees.push pushed, derives.orderly.push unassigned pushed,
    derives.flags.trans (sameFlags_push pushed), levels.trans derives.levels,
    ⟨new ++ [literal], ?_, ?_⟩, ?_⟩
  · rw [list, appended, List.append_assoc]
  · exact List.forall_mem_append.2 ⟨presentNew, by simpa using present⟩
  · rw [list]
    exact List.forall_mem_append.2 ⟨derives.known, by simpa using follows⟩

/-- The complement of a false literal follows. -/
theorem Derives.propagates_complement (derives : Derives picture assumed start trail)
    (positive : 0 < literal.var) (falsified : trail.literalValue? literal = some (some false)) :
    Propagates picture.formula {assumed} literal.complement :=
  derives.known _ (derives.orderly ▸ derives.agrees.mem_of_false positive falsified)

/-- Propagation derives literals by unit propagation, and ends with a conflict only
if there is one. -/
theorem propagate_ends (wellFormed : picture.WellFormed)
    (clauses : ∀ handle clause, arena.live? handle = some clause →
      clause.literals ∈ picture.clauses)
    (derives : Derives picture assumed start trail) :
    (propagate arena index).Ends trail (fun conflict after =>
      Derives picture assumed start after ∧
        (conflict.isSome = true → Conflicts picture.formula {assumed})) fun _ _ => False := by
  have present : ∀ handle clause, arena.live? handle = some clause →
      ∀ literal ∈ clause.literals, picture.Present literal.var := fun handle clause live =>
    (wellFormed.admits _ (clauses handle clause live)).present
  have kept : KeptByUnits arena (Derives picture assumed start) := by
    intro trail after handle clause literal derives live member unassigned falsified pushed
    refine derives.imply (present handle clause live literal member) unassigned ?_ pushed
    refine .unit (.inl (clauses handle clause live)) member fun other inside different => ?_
    exact derives.propagates_complement (present handle clause live other inside).1
      (falsified other inside different)
  refine (propagate_keeps (fun _ _ _ derives => derives.of_head) kept derives).imp ?_
    fun _ _ impossible => impossible
  rintro conflict after ⟨derives, falsifies⟩
  refine ⟨derives, fun isConflict => ?_⟩
  obtain ⟨handle, clause, live, falsified⟩ := falsifies isConflict
  exact ⟨clause.literals, .inl (clauses handle clause live), fun other inside =>
    derives.propagates_complement (present handle clause live other inside).1
      (falsified other inside)⟩

end Assumption

/-! ## Propagating at a root that was applied -/

/-- Where no clause has a literal there is nothing to visit. -/
theorem visit_looks {falsified : Literal} (handles : List Handle)
    (lacks : ∀ handle clause, arena.live? handle = some clause → falsified ∉ clause.literals) :
    (visit arena falsified handles).Looks trail fun conflict => conflict = none := by
  induction handles with
  | nil => exact .of_done rfl rfl
  | cons handle rest ih =>
    unfold visit
    split
    next => exact ih
    next clause found =>
    split
    next => exact ih
    next alive =>
      rw [Bool.or_eq_true, not_or] at alive
      have live := Arena.live?_of_alive found alive.1
      exact absurd (by simpa [Clause.contains] using alive.2) (lacks handle clause live)

/-- Where no clause has a literal of the trail propagation only moves the head. -/
theorem propagateLoop_of_lacks (fuel head : Nat)
    (lacks : ∀ literal ∈ trail.literals.toList, ∀ handle clause,
      arena.live? handle = some clause → literal.complement ∉ clause.literals) :
    (propagateLoop arena index fuel).Ends { trail with head := head } (fun conflict after =>
      conflict = none ∧ ∃ head, after = { trail with head := head }) fun _ _ => False := by
  induction fuel generalizing head with
  | zero => exact .stop
  | succ fuel ih =>
    unfold propagateLoop
    refine .step rfl ?_
    split
    next => exact .pure ⟨rfl, head, rfl⟩
    next literal onTrail =>
      have member : literal ∈ trail.literals.toList :=
        Array.mem_toList_iff.2 (Array.mem_of_getElem? onTrail)
      refine .step rfl (Run.Looks.access.bind fun handles _ => ?_)
      refine (visit_looks _ (lacks literal member)).bind ?_
      rintro _ rfl
      exact ih (head + 1)

/-! ## Closing levels -/

/-- The last literal loses its value last. -/
theorem unassign_cons {rest : List Literal} (undone : trail.unassign (literal :: rest) = some after) :
    ∃ middle : Trail, middle.unassign rest = some after ∧ middle.literals = trail.literals ∧
      middle.levels = trail.levels ∧ trail.SameFlags middle ∧
      middle.vars = trail.vars.modify literal.var fun state => { state with value := none } := by
  obtain ⟨middle, changed, others⟩ := Option.bind_eq_some_iff.1 undone
  obtain ⟨same, _⟩ := vars_modify? changed
  have vars : middle.vars = trail.vars.modify literal.var
      fun state => { state with value := none } := by rw [same]
  exact ⟨middle, others, by rw [same], by rw [same], sameFlags_modify vars (fun _ => rfl)
    (by rw [same]) (by rw [same]), vars⟩

/-- Taking values back changes no mark. -/
theorem sameFlags_unassign (undone : trail.unassign literals = some after) :
    trail.SameFlags after := by
  induction literals generalizing trail with
  | nil =>
    obtain rfl : trail = after := by simpa [unassign] using undone
    exact .refl _
  | cons literal rest ih =>
    obtain ⟨middle, others, _, _, flags, _⟩ := unassign_cons undone
    exact flags.trans (ih others)

/-- Closing levels leaves variables and marks. -/
theorem sameFlags_cancelUntil {level : Nat} (cancelled : trail.cancelUntil level = some after) :
    trail.SameFlags after := by
  unfold cancelUntil at cancelled
  split at cancelled
  next =>
    obtain rfl : trail = after := by simpa using cancelled
    exact .refl _
  next =>
    obtain ⟨middle, undone, rfl⟩ := by simpa [Option.bind_eq_some_iff] using cancelled
    have flags := sameFlags_unassign undone
    exact ⟨flags.size, flags.flags, flags.eliminated, flags.substituted⟩

/-- Unassigning takes values away and nothing else. -/
theorem unassign_spec (undone : trail.unassign literals = some after) :
    after.literals = trail.literals ∧ after.levels = trail.levels ∧
      ∀ name : Nat, after.value? name =
        if name ∈ literals.map Literal.var then (trail.value? name).map fun _ => none
        else trail.value? name := by
  induction literals generalizing trail with
  | nil =>
    obtain rfl : trail = after := by simpa [unassign] using undone
    simp
  | cons literal rest ih =>
    obtain ⟨middle, others, sameLiterals, sameLevels, _, vars⟩ := unassign_cons undone
    obtain ⟨literals, levels, values⟩ := ih others
    refine ⟨literals.trans sameLiterals, levels.trans sameLevels, fun name => ?_⟩
    have first : middle.value? name =
        if name = literal.var then (trail.value? name).map fun _ => none
        else trail.value? name := by
      unfold value?
      rw [vars, Array.getElem?_modify]
      by_cases same : literal.var = name
      · simp [same, Option.map_map, Function.comp_def]
      · simp [same, Ne.symm same]
    rw [values, first]
    by_cases same : name = literal.var
    · by_cases later : name ∈ rest.map Literal.var <;>
        simp [same, Option.map_map, Function.comp_def]
    · simp [same]

/-- Closing the first level takes the literals from its start on back. -/
theorem cancelUntil_spec (levels : trail.levels = #[root.length])
    (appended : trail.literals.toList = root ++ new)
    (cancelled : trail.cancelUntil 0 = some after) :
    after.literals.toList = root ∧ after.levels = #[] ∧
      ∀ name : Nat, after.value? name =
        if name ∈ new.map Literal.var then (trail.value? name).map fun _ => none
        else trail.value? name := by
  unfold cancelUntil at cancelled
  rw [levels] at cancelled
  obtain ⟨middle, undone, rfl⟩ : ∃ middle, trail.unassign (trail.literals.toList.drop root.length) =
      some middle ∧ { middle with
        literals := middle.literals.take root.length
        levels := middle.levels.take 0
        head := min middle.head root.length } = after := by
    simpa [Option.bind_eq_some_iff] using cancelled
  rw [appended, List.drop_left] at undone
  obtain ⟨literals, _, values⟩ := unassign_spec undone
  refine ⟨?_, by simp, values⟩
  rw [literals, Array.take_eq_extract, Array.toList_extract, appended, List.extract_eq_take_drop,
    List.drop_zero, Nat.sub_zero, List.take_left]

/-- After the first level was closed every value stands on the trail still. -/
theorem agrees_cancelUntil (agrees : trail.Agrees) (levels : trail.levels = #[root.length])
    (appended : trail.literals.toList = root ++ new)
    (cancelled : trail.cancelUntil 0 = some after) :
    after.Agrees := by
  obtain ⟨literals, _, values⟩ := cancelUntil_spec levels appended cancelled
  intro literal state present found assigned
  have value : after.value? literal.var = some state.value := by
    unfold value?
    rw [found]
    rfl
  rw [literals]
  rw [values] at value
  split at value
  next =>
    obtain ⟨old, _, isNone⟩ := Option.map_eq_some_iff.1 value
    rw [← isNone] at assigned
    cases assigned
  next notNew =>
    obtain ⟨old, oldFound, same⟩ := Option.map_eq_some_iff.1 value
    have member := agrees literal old present oldFound (same.trans assigned)
    rw [appended, List.mem_append] at member
    exact member.resolve_right fun isNew => notNew (List.mem_map_of_mem isNew)

/-- Closing the first level brings an orderly trail back to the root. -/
theorem cancelUntil_of_appended (agrees : trail.Agrees) (orderly : trail.Orderly)
    (levels : trail.levels = #[root.length]) (appended : trail.literals.toList = root ++ new)
    (cancelled : trail.cancelUntil 0 = some after) :
    after.Agrees ∧ after.Orderly ∧ after.literals.toList = root ∧ after.levels = #[] := by
  obtain ⟨literals, closed, values⟩ := cancelUntil_spec levels appended cancelled
  have distinct := orderly.nodup
  rw [appended, List.map_append, List.nodup_append] at distinct
  obtain ⟨nodup, holds⟩ := orderly_iff.1 orderly
  rw [appended] at nodup holds
  refine ⟨agrees_cancelUntil agrees levels appended cancelled, orderly_iff.2 ?_, literals, closed⟩
  rw [literals]
  refine ⟨(List.nodup_append.1 nodup).1, fun literal member => ?_⟩
  rw [values, if_neg fun isNew => ?_]
  · exact holds literal (List.mem_append_left _ member)
  · exact distinct.2.2 _ (List.mem_map_of_mem member) _ isNew rfl

end Trail

end CnfSimplifier
