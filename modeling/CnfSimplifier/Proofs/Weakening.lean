import CnfSimplifier.Proofs.Conclusion

/-!
# Removing clauses with records

Clauses that are not implied by the others may go if records make up for them.
What the engine does clause by clause is one step of the formula: all the clauses
go at once, with all their records, then the proof is told of each, and last the
variables go that are mentioned nowhere any more.
-/
namespace CnfSimplifier

variable {trail after : Trail} {name : Nat}

/-! ## Steps in a row -/

namespace Steps

variable {scope : Scope}

/-- The proof is told of all pending removals. -/
theorem report_all [Realm] (picture : Picture) (gone : List (List Literal))
    (rest : Multiset (List Literal)) :
    Steps scope { picture with pending := gone + rest }
      { picture.logged (gone.map ProofStep.removed) with pending := rest } := by
  induction gone generalizing picture with
  | nil =>
    have same : picture.logged [] = picture := by
      unfold Picture.logged
      simp
    rw [List.map_nil, same]
    simpa using Relation.ReflTransGen.refl
  | cons literals others ih =>
    have reported : Step scope { picture with pending := (literals :: others : List _) + rest }
        { picture.logged [ProofStep.removed literals] with pending := others + rest } :=
      .report literals (others + rest) (by rw [← Multiset.cons_coe, Multiset.cons_add])
    refine .head reported ((ih (picture.logged [ProofStep.removed literals])).trans ?_)
    unfold Picture.logged
    simp only [Option.map_map, Function.comp_def, List.append_assoc, List.singleton_append,
      List.map_cons]
    exact .refl

/-- Variables go that are mentioned nowhere. -/
theorem retire_all [Realm] (picture : Picture) (names : List Nat)
    (positive : ∀ name ∈ names, 0 < name)
    (retired : ∀ name ∈ names, ¬ picture.frozen name ∧
      ∀ literals ∈ picture.formula, ∀ literal ∈ literals, literal.var ≠ name) :
    Steps .removal picture
      { picture with removed := fun name => name ∈ names ∨ picture.removed name } := by
  induction names generalizing picture with
  | nil => simpa using Relation.ReflTransGen.refl
  | cons name others ih =>
    obtain ⟨here, positiveRest⟩ := List.forall_mem_cons.1 positive
    obtain ⟨unprotected, unmentioned⟩ := retired name List.mem_cons_self
    have first : Step .removal picture { picture with
        removed := fun other => other = name ∨ picture.removed other } :=
      .retire name rfl unprotected unmentioned here
    have rest := ih { picture with removed := fun other => other = name ∨ picture.removed other }
      positiveRest fun other member => retired other (List.mem_cons_of_mem _ member)
    have same : (fun other => other ∈ others ∨ other = name ∨ picture.removed other) =
        fun other => other ∈ name :: others ∨ picture.removed other := by
      funext other
      rw [List.mem_cons, or_left_comm, or_assoc]
    dsimp only at rest
    rw [same] at rest
    exact .head first rest

end Steps

/-- A record of a clause and a chosen literal. -/
def Record.ofClause (chosen : Literal) (literals : List Literal) : Record :=
  ⟨chosen, literals.filter fun literal => literal != chosen⟩

/-- The clause of a record has the literals of the clause. -/
theorem Record.mem_ofClause {chosen literal : Literal} {literals : List Literal}
    (inside : chosen ∈ literals) :
    literal ∈ (Record.ofClause chosen literals).literals ↔ literal ∈ literals := by
  unfold Record.literals Record.ofClause
  rw [List.mem_cons, List.mem_filter]
  constructor
  · rintro (rfl | ⟨member, _⟩)
    · exact inside
    · exact member
  · intro member
    by_cases same : literal = chosen
    · exact .inl same
    · exact .inr ⟨member, by simpa using same⟩

theorem Record.clauseHolds_ofClause {chosen : Literal} {literals : List Literal} {values : Assignment}
    (inside : chosen ∈ literals) :
    ClauseHolds values (Record.ofClause chosen literals).literals ↔ ClauseHolds values literals :=
  clauseHolds_iff_of_mem fun _ => Record.mem_ofClause inside

theorem Reconstruction.push_eq_pushAll (stack : Reconstruction) (chosen : Literal)
    (literals : List Literal) :
    stack.push chosen literals = stack.pushAll [Record.ofClause chosen literals] := by
  simp [Reconstruction.pushAll, Reconstruction.push, Record.ofClause, List.filter_filter]

/-- The assignment after a variable went. -/
structure Trail.Retires (trail : Trail) (name : Nat) (after : Trail) : Prop where
  sound : trail.Sound → after.Sound
  literals : after.literals = trail.literals
  facts : after.facts = trail.facts
  size : after.vars.size = trail.vars.size
  frozen : after.Frozen = trail.Frozen
  removed : ∀ other, after.Removed other ↔ other = name ∨ trail.Removed other
  others : ∀ other, other ≠ name → after.flags? other = trail.flags? other

/-- An event that removes a variable retires it. -/
theorem Trail.handle_removed {event : Event}
    (goes : event = .eliminated name ∨ event = .substituted name)
    (handled : trail.handle event = some after) : trail.Retires name after := by
  obtain ⟨flag, flagged, changed⟩ : ∃ flag, (flag = .eliminated ∨ flag = .substituted) ∧
      ∃ middle, trail.setFlag name flag true = some middle ∧ after.vars = middle.vars ∧
        after.literals = middle.literals ∧ after.levels = middle.levels := by
    rcases goes with rfl | rfl
    · obtain ⟨middle, set, rfl⟩ := by simpa [Trail.handle, Option.bind_eq_some_iff] using handled
      exact ⟨.eliminated, .inl rfl, middle, set, rfl, rfl, rfl⟩
    · obtain ⟨middle, set, rfl⟩ := by simpa [Trail.handle, Option.bind_eq_some_iff] using handled
      exact ⟨.substituted, .inr rfl, middle, set, rfl, rfl, rfl⟩
  obtain ⟨middle, set, vars, literals, levels⟩ := changed
  obtain ⟨rfl, inside⟩ := vars_modify? set
  dsimp only at vars literals levels
  have flags : ∀ other, after.flags? other =
      if other = name then (trail.flags? name).map fun flags => flags.set flag true
      else trail.flags? other := by
    intro other
    unfold flags?
    rw [vars, Array.getElem?_modify]
    by_cases same : name = other
    · subst same
      simp [Option.map_map, Function.comp_def]
    · simp [same, Ne.symm same]
  have present : ∃ old, trail.flags? name = some old := by
    unfold flags?
    rw [Array.getElem?_eq_getElem inside]
    exact ⟨_, rfl⟩
  obtain ⟨old, known⟩ := present
  refine ⟨fun sound => ⟨?_, ?_, ?_, ?_⟩, literals,
    facts_congr literals (value?_modify_of_keeps vars fun _ => rfl), ?_, ?_, ?_, ?_⟩
  · rw [levels, sound.atRoot]
  · rw [vars, Array.size_modify]
    exact sound.small
  · rw [vars, Array.size_modify]
    exact sound.nonempty
  · exact sound.agrees.of_same_values literals
      (value?_modify_of_keeps vars fun _ => rfl)
  · rw [vars, Array.size_modify]
  · funext other
    unfold Frozen
    rw [flags]
    split
    next same =>
      subst same
      rw [known]
      rcases flagged with rfl | rfl <;> simp [VarFlags.set]
    next => rfl
  · intro other
    unfold Removed
    rw [flags]
    split
    next same =>
      subst same
      rw [known]
      rcases flagged with rfl | rfl <;> simp [VarFlags.set, VarFlags.isRemoved]
    next different => simp [different]
  · intro other different
    rw [flags, if_neg different]

/-- A variable that is reported as substituted is. -/
theorem Trail.substituted_of_handle (handled : trail.handle (.substituted name) = some after) :
    after.Substituted name := by
  obtain ⟨middle, set, rfl⟩ := by simpa [Trail.handle, Option.bind_eq_some_iff] using handled
  obtain ⟨rfl, inside⟩ := vars_modify? set
  refine ⟨(trail.vars[name].flags).set .substituted true, ?_, rfl⟩
  simp [flags?, Array.getElem?_modify, Array.getElem?_eq_getElem inside]

/-- How many variables have a mark after one more got it. -/
theorem Trail.countP_flags_set {trail middle : Trail} {flag : VarFlag} {mark : VarFlags → Bool}
    {old : VarFlags} (changed : middle.vars = trail.vars.modify name fun state =>
      { state with flags := state.flags.set flag true }) (known : trail.flags? name = some old)
    (unmarked : mark old = false) :
    (middle.vars.map VarState.flags).countP mark = (trail.vars.map VarState.flags).countP mark +
      if mark (old.set flag true) then 1 else 0 := by
  obtain ⟨state, found, rfl⟩ := Option.map_eq_some_iff.1 known
  obtain ⟨inside, isState⟩ := Array.getElem?_eq_some_iff.1 found
  have replaced : (middle.vars.map VarState.flags).toList =
      (trail.vars.map VarState.flags).toList.set name (state.flags.set flag true) := by
    apply List.ext_getElem?
    intro place
    rw [changed]
    simp only [Array.getElem?_toList, Array.getElem?_map, Array.getElem?_modify, List.getElem?_set,
      Array.length_toList, Array.size_map]
    by_cases same : name = place
    · subst same
      simp [inside, isState]
    · simp [same]
  have bound : name < (trail.vars.map VarState.flags).toList.length := by simpa using inside
  have here : (trail.vars.map VarState.flags).toList[name] = state.flags := by simp [isState]
  rw [← Array.countP_toList, ← Array.countP_toList, replaced, List.countP_set bound, here, unmarked]
  simp

/-- A variable that goes is counted once. -/
theorem Trail.accounts_of_handle {event : Event}
    (goes : event = .eliminated name ∨ event = .substituted name)
    (handled : trail.handle event = some after) (kept : ¬ trail.Removed name)
    (accounts : trail.Accounts) : after.Accounts := by
  have unmarked : ∀ old, trail.flags? name = some old →
      old.eliminated = false ∧ old.substituted = false := by
    intro old known
    have notRemoved : ¬ old.isRemoved = true := fun removed => kept ⟨old, known, removed⟩
    simpa [VarFlags.isRemoved] using notRemoved
  have count : ∀ flag, ∀ middle, trail.setFlag name flag true = some middle → ∃ old,
      trail.flags? name = some old ∧ middle.vars = trail.vars.modify name
        (fun state => { state with flags := state.flags.set flag true }) ∧
      middle.eliminated = trail.eliminated ∧ middle.substituted = trail.substituted := by
    intro flag middle set
    obtain ⟨rfl, inside⟩ := vars_modify? set
    exact ⟨_, by rw [flags?, Array.getElem?_eq_getElem inside]; rfl, rfl, rfl, rfl⟩
  have apart : ∀ flag (middle : Trail), middle.vars = trail.vars.modify name
      (fun state => { state with flags := state.flags.set flag true }) →
      (flag = .eliminated ∨ flag = .substituted) → ∀ other flags,
      middle.flags? other = some flags →
        ¬ (flags.eliminated = true ∧ flags.substituted = true) := by
    intro flag middle vars isFlag other flags found
    unfold flags? at found
    rw [vars, Array.getElem?_modify] at found
    split at found
    next same =>
      subst same
      obtain ⟨state, lookedUp, rfl⟩ := by simpa using found
      have := unmarked state.flags (by simp [flags?, lookedUp])
      rcases isFlag with rfl | rfl <;> simp [VarFlags.set, this]
    next => exact accounts.apart other flags found
  rcases goes with rfl | rfl
  · obtain ⟨middle, set, rfl⟩ := by simpa [Trail.handle, Option.bind_eq_some_iff] using handled
    obtain ⟨old, known, vars, eliminated, substituted⟩ := count _ _ set
    obtain ⟨notEliminated, notSubstituted⟩ := unmarked old known
    refine ⟨?_, ?_, apart .eliminated middle vars (.inl rfl)⟩
    · change middle.eliminated + 1 = (middle.vars.map VarState.flags).countP _
      rw [countP_flags_set vars known notEliminated, eliminated, accounts.eliminated]
      simp [VarFlags.set]
    · change middle.substituted = (middle.vars.map VarState.flags).countP _
      rw [countP_flags_set vars known notSubstituted, substituted, accounts.substituted]
      simp [VarFlags.set, notSubstituted]
  · obtain ⟨middle, set, rfl⟩ := by simpa [Trail.handle, Option.bind_eq_some_iff] using handled
    obtain ⟨old, known, vars, eliminated, substituted⟩ := count _ _ set
    obtain ⟨notEliminated, notSubstituted⟩ := unmarked old known
    refine ⟨?_, ?_, apart .substituted middle vars (.inr rfl)⟩
    · change middle.eliminated = (middle.vars.map VarState.flags).countP _
      rw [countP_flags_set vars known notEliminated, eliminated, accounts.eliminated]
      simp [VarFlags.set, notEliminated]
    · change middle.substituted + 1 = (middle.vars.map VarState.flags).countP _
      rw [countP_flags_set vars known notSubstituted, substituted, accounts.substituted]
      simp [VarFlags.set]

namespace Engine

variable {engine middle after : Engine} {handle : Handle} {clause : Clause}
  {gone : List (List Literal)} {records : List Record} {names : List Nat}
  {failed : Error → Engine → Prop} {literals : List Literal}

/-- What it takes for a variable to be removable. -/
structure Removable (engine : Engine) (name : Nat) : Prop where
  value : engine.trail.value? name = some none
  unprotected : ¬ engine.trail.Frozen name
  kept : ¬ engine.trail.Removed name
  inRange : name < engine.trail.vars.size

/-- A variable may go if the engine says so. -/
theorem removable_of_isRemovable? {name : Nat} (removable : engine.isRemovable? name = some true) :
    engine.Removable name := by
  obtain ⟨state, found, both⟩ := Option.map_eq_some_iff.1 removable
  obtain ⟨unassigned, flags⟩ := Bool.and_eq_true_iff.1 both
  have plain : state.flags.eliminated = false ∧ state.flags.frozen = false ∧
      state.flags.substituted = false := by
    simpa [VarFlags.isRemovable, and_assoc] using flags
  have known : engine.trail.flags? name = some state.flags := by
    unfold Trail.flags?
    rw [found]
    rfl
  refine ⟨?_, ?_, ?_, (Array.getElem?_eq_some_iff.1 found).1⟩
  · unfold Trail.value?
    rw [found]
    simpa using unassigned
  · rintro ⟨flags, lookedUp, frozen⟩
    rw [known, Option.some.injEq] at lookedUp
    rw [← lookedUp, plain.2.1] at frozen
    cases frozen
  · rintro ⟨flags, lookedUp, removed⟩
    rw [known, Option.some.injEq] at lookedUp
    rw [← lookedUp] at removed
    simp [VarFlags.isRemoved, plain] at removed

/-- A removable variable is open. -/
theorem Removable.isOpen {name : Nat} (removable : engine.Removable name) :
    ∀ literal ∈ engine.trail.facts, literal.var ≠ name :=
  Trail.open_of_value? removable.value

/-- The engine after clauses went, with records, and variables. -/
structure Takes (engine : Engine) (gone : List (List Literal)) (records : List Record)
    (names : List Nat) (after : Engine) : Prop where
  inStep : after.InStep
  contents : engine.arena.contents = gone + after.arena.contents
  log : after.picture.log = engine.picture.log.map (· ++ gone.map ProofStep.removed)
  pushed : after.records = engine.records.pushAll records
  dirty : after.index.dirty = engine.index.dirty
  literals : after.trail.literals = engine.trail.literals
  root : after.trail.facts = engine.trail.facts
  numVars : after.numVars = engine.numVars
  frozen : after.trail.Frozen = engine.trail.Frozen
  removed : ∀ name, after.trail.Removed name ↔ name ∈ names ∨ engine.trail.Removed name
  others : ∀ name, name ∉ names → after.trail.flags? name = engine.trail.flags? name
  accounts : names.Nodup → (∀ name ∈ names, ¬ engine.trail.Removed name) →
    engine.trail.Accounts → after.trail.Accounts
  unsat : after.unsat = engine.unsat
  poisoned : after.poisoned = engine.poisoned
  settings : after.settings = engine.settings
  applied : after.applied = engine.applied
  irredundant : engine.arena.Irredundant → after.arena.Irredundant
  older : ∀ handle clause, after.arena.live? handle = some clause →
    engine.arena.live? handle = some clause

theorem Takes.refl (inStep : engine.InStep) : Takes engine [] [] [] engine where
  inStep := inStep
  contents := by simp
  log := by simp
  pushed := rfl
  dirty := rfl
  literals := rfl
  root := rfl
  numVars := rfl
  frozen := rfl
  removed := by simp
  others := fun _ _ => rfl
  accounts := fun _ _ => id
  unsat := rfl
  poisoned := rfl
  settings := rfl
  applied := rfl
  irredundant := id
  older := fun _ _ live => live

theorem Takes.trans {gone more : List (List Literal)} {records others : List Record}
    {names further : List Nat} (first : Takes engine gone records names middle)
    (second : Takes middle more others further after) :
    Takes engine (gone ++ more) (records ++ others) (names ++ further) after where
  inStep := second.inStep
  contents := by
    rw [first.contents, second.contents, ← Multiset.coe_add, add_assoc]
  log := by
    rw [second.log, first.log, Option.map_map, List.map_append]
    simp [Function.comp_def]
  pushed := by
    rw [second.pushed, first.pushed, Reconstruction.pushAll_append]
  dirty := second.dirty.trans first.dirty
  literals := second.literals.trans first.literals
  root := second.root.trans first.root
  numVars := second.numVars.trans first.numVars
  frozen := second.frozen.trans first.frozen
  removed := by
    intro name
    rw [second.removed, first.removed, List.mem_append, ← or_assoc, or_comm (a := name ∈ further)]
  others := by
    intro name absent
    rw [List.mem_append, not_or] at absent
    rw [second.others name absent.2, first.others name absent.1]
  accounts := by
    intro distinct kept accounts
    obtain ⟨distinctFirst, distinctSecond, apart⟩ := List.nodup_append.1 distinct
    obtain ⟨keptFirst, keptSecond⟩ := List.forall_mem_append.1 kept
    refine second.accounts distinctSecond (fun name member => ?_)
      (first.accounts distinctFirst keptFirst accounts)
    rw [first.removed]
    rintro (earlier | removed)
    · exact apart name earlier name member rfl
    · exact keptSecond name member removed
  unsat := second.unsat.trans first.unsat
  poisoned := second.poisoned.trans first.poisoned
  settings := second.settings.trans first.settings
  applied := second.applied.trans first.applied
  irredundant := fun pure => second.irredundant (first.irredundant pure)
  older := fun handle clause live => first.older handle clause (second.older handle clause live)

/-- A clause that is gone stays gone. -/
theorem Takes.dead (takes : Takes engine gone records names after)
    (dead : engine.arena.live? handle = none) : after.arena.live? handle = none := by
  cases live : after.arena.live? handle with
  | none => rfl
  | some clause =>
    rw [takes.older handle clause live] at dead
    cases dead

/-- A removal takes the clause away. -/
theorem Removes.takes (removes : Removes engine handle clause after)
    (live : engine.arena.live? handle = some clause)
    (dirty : after.index.dirty = engine.index.dirty)
    (log : after.picture.log = engine.picture.log.map (· ++ [ProofStep.removed clause.literals])) :
    Takes engine [clause.literals] [] [] after where
  inStep := removes.inStep
  contents := by
    rw [removes.contents, Multiset.coe_singleton, Multiset.singleton_add]
  log := log
  pushed := removes.records
  dirty := dirty
  literals := by rw [removes.trail]
  root := by rw [removes.trail]
  numVars := by
    unfold Engine.numVars
    rw [removes.trail]
  frozen := by rw [removes.trail]
  removed := by simp [removes.trail]
  others := fun _ _ => by rw [removes.trail]
  accounts := fun _ _ => removes.trail ▸ id
  unsat := removes.unsat
  poisoned := removes.poisoned
  settings := removes.settings
  applied := removes.applied
  irredundant := removes.irredundant live
  older := fun _ _ liveOther => removes.live_of_live live liveOther

/-- Records are pushed. -/
theorem Takes.of_records (inStep : engine.InStep) (records : List Record) :
    Takes engine [] records [] { engine with records := engine.records.pushAll records } :=
  { Takes.refl inStep with
    inStep := inStep.of_same rfl rfl rfl rfl
    pushed := rfl }

/-- Counters do not matter. -/
theorem Takes.of_same (inStep : engine.InStep) (arena : after.arena = engine.arena)
    (index : after.index = engine.index) (trail : after.trail = engine.trail)
    (records : after.records = engine.records) (proof : after.proof = engine.proof)
    (unsat : after.unsat = engine.unsat) (poisoned : after.poisoned = engine.poisoned)
    (settings : after.settings = engine.settings) (applied : after.applied = engine.applied) :
    Takes engine [] [] [] after where
  inStep := inStep.of_same arena index trail applied
  contents := by simp [arena]
  log := by
    rw [picture_eq_of_same arena trail records proof]
    simp
  pushed := records
  dirty := by rw [index]
  literals := by rw [trail]
  root := by rw [trail]
  numVars := by
    unfold Engine.numVars
    rw [trail]
  frozen := by rw [trail]
  removed := by simp [trail]
  others := fun _ _ => by rw [trail]
  accounts := fun _ _ => trail ▸ id
  unsat := unsat
  poisoned := poisoned
  settings := settings
  applied := applied
  irredundant := fun pure => arena ▸ pure
  older := fun handle clause live => arena ▸ live

/-- What keeps the formula may come after it. -/
theorem Takes.then_same (takes : Takes engine gone records names middle)
    (arena : after.arena = middle.arena) (index : after.index = middle.index)
    (trail : after.trail = middle.trail) (pushed : after.records = middle.records)
    (proof : after.proof = middle.proof) (unsat : after.unsat = middle.unsat)
    (poisoned : after.poisoned = middle.poisoned) (settings : after.settings = middle.settings)
    (applied : after.applied = middle.applied) : Takes engine gone records names after := by
  simpa using takes.trans
    (.of_same takes.inStep arena index trail pushed proof unsat poisoned settings applied)

/-- Live clauses other than the given ones stay. -/
def Spares (engine : Engine) (handles : List Handle) (after : Engine) : Prop :=
  ∀ handle clause, engine.arena.live? handle = some clause → handle ∉ handles →
    after.arena.live? handle = some clause

theorem KeepsOthers.spares (others : engine.KeepsOthers handle after) :
    engine.Spares [handle] after := by
  intro other clause live absent
  rw [List.mem_singleton] at absent
  rw [Arena.live?_eq_some] at live ⊢
  rwa [others other absent]

theorem Spares.cons {rest : List Handle} (first : engine.Spares [handle] middle)
    (later : middle.Spares rest after) : engine.Spares (handle :: rest) after := by
  intro other clause live absent
  rw [List.mem_cons, not_or] at absent
  exact later other clause (first other clause live (by simpa using absent.1)) absent.2

/-- A clause goes unless it is gone. -/
theorem removeIfLive_ends (inStep : engine.InStep) :
    (removeIfLive handle).Ends engine (fun _ after => ∃ gone, Takes engine gone [] [] after ∧
      after.arena.live? handle = none ∧ (∀ literals ∈ gone, ∃ clause,
        engine.arena.live? handle = some clause ∧ clause.literals = literals) ∧
      engine.Spares [handle] after) failed := by
  unfold removeIfLive
  refine looks_clause.bind fun clause found => ?_
  split
  next dead =>
    refine .pure ⟨[], .refl inStep, ?_, by simp, fun _ _ live _ => live⟩
    unfold Arena.live?
    rw [found]
    simp [dead]
  next alive =>
    have live := Arena.live?_of_alive found alive
    refine (removeClause_ends inStep live).imp ?_ fun _ _ no => no.elim
    rintro _ after ⟨removes, dirty, log⟩
    refine ⟨[clause.literals], removes.takes live dirty log, removes.live?_self live, ?_,
      (removes.keepsOthers live).spares⟩
    exact fun literals single => ⟨clause, live, (List.mem_singleton.1 single).symm⟩

/-- Clauses go unless they are gone. -/
theorem removeAllLive_ends (handles : List Handle) (inStep : engine.InStep) :
    (handles.forM removeIfLive).Ends engine (fun _ after => ∃ gone,
      Takes engine gone [] [] after ∧ (∀ handle ∈ handles, after.arena.live? handle = none) ∧
        (∀ literals ∈ gone, ∃ handle ∈ handles, ∃ clause,
          engine.arena.live? handle = some clause ∧ clause.literals = literals) ∧
        engine.Spares handles after) failed := by
  induction handles generalizing engine with
  | nil => exact .pure ⟨[], .refl inStep, by simp, by simp, fun _ _ live _ => live⟩
  | cons handle rest ih =>
    refine (removeIfLive_ends inStep).bind ?_
    rintro _ middle ⟨gone, takes, dead, own, spares⟩
    refine (ih takes.inStep).imp ?_ fun _ _ failed => failed
    rintro _ after ⟨more, takesRest, deadRest, ownRest, sparesRest⟩
    refine ⟨gone ++ more, takes.trans takesRest, ?_, ?_, spares.cons sparesRest⟩
    · exact List.forall_mem_cons.2 ⟨takesRest.dead dead, deadRest⟩
    · intro literals member
      rcases List.mem_append.1 member with first | later
      · exact ⟨handle, List.mem_cons_self, own literals first⟩
      · obtain ⟨other, inRest, clause, live, same⟩ := ownRest literals later
        exact ⟨other, List.mem_cons_of_mem _ inRest, clause, takes.older _ _ live, same⟩

/-- A clause goes, with a record unless it is redundant. -/
theorem removeWithRecord_ends (inStep : engine.InStep) {chosen : Literal}
    (live : engine.arena.live? handle = some clause) :
    (removeWithRecord handle chosen).Ends engine (fun _ after =>
      Takes engine [clause.literals] (if clause.isRedundant then [] else
        [Record.ofClause chosen clause.literals]) [] after ∧ after.arena.live? handle = none ∧
        engine.KeepsOthers handle after ∧ after.trail = engine.trail) failed := by
  obtain ⟨found, _⟩ := Arena.live?_eq_some.1 live
  unfold removeWithRecord
  refine looks_clause.bind fun removed lookedUp => ?_
  rw [found, Option.some.injEq] at lookedUp
  subst lookedUp
  have removal : ∀ records : Reconstruction, (removeClause handle).Ends
      { engine with records := records } (fun _ after =>
        Takes { engine with records := records } [clause.literals] [] [] after ∧
          after.arena.live? handle = none ∧ engine.KeepsOthers handle after ∧
          after.trail = engine.trail) failed := by
    intro records
    have inStep : Engine.InStep { engine with records := records } :=
      inStep.of_same rfl rfl rfl rfl
    refine (removeClause_ends inStep live).imp ?_ fun _ _ no => no.elim
    rintro _ after ⟨removes, dirty, log⟩
    exact ⟨removes.takes live dirty log, removes.live?_self live, removes.keepsOthers live, removes.trail⟩
  split
  next redundant => exact removal engine.records
  next irredundant =>
    refine .step rfl ((removal (engine.records.push chosen clause.literals)).imp ?_
      fun _ _ failed => failed)
    rintro _ after ⟨takes, rest⟩
    refine ⟨{ takes with pushed := ?_ }, rest⟩
    rw [takes.pushed]
    exact Reconstruction.push_eq_pushAll engine.records chosen clause.literals

/-- A variable goes. -/
theorem handle_removed_ends (inStep : engine.InStep) {name : Nat} {event : Event}
    (goes : event = .eliminated name ∨ event = .substituted name) :
    (Engine.handle event).Ends engine (fun _ after => Takes engine [] [] [name] after ∧
      after.arena = engine.arena ∧ (event = .substituted name → after.trail.Substituted name))
      failed := by
  have retires : ∀ trail, engine.trail.handle event = some trail →
      Takes engine [] [] [name] { engine with trail := trail, changes := engine.changes + 1 } := by
    intro trail handled
    have retired := Trail.handle_removed goes handled
    refine { Takes.refl inStep with
      inStep := ⟨?_, retired.sound inStep.trail, ?_⟩
      literals := retired.literals
      root := retired.facts
      numVars := ?_
      frozen := retired.frozen
      removed := fun other => ?_
      others := fun other absent => retired.others other (by simpa using absent)
      accounts := fun _ kept => Trail.accounts_of_handle goes handled (kept name (by simp)) }
    · change Filed (2 * trail.vars.size) engine.index engine.arena
      rw [retired.size]
      exact inStep.toFiled
    · change ∀ literal ∈ trail.literals.toList.drop engine.applied, literal ∈ trail.facts
      rw [retired.literals, retired.facts]
      exact inStep.due
    · exact congrArg (· - 1) retired.size
    · rw [List.mem_singleton]
      exact retired.removed other
  rcases goes with rfl | rfl
  · exact .seq (updateTrail_ends fun trail handled =>
      .of_done rfl ⟨retires trail handled, rfl, nofun⟩)
  · exact .seq (updateTrail_ends fun trail handled =>
      .of_done rfl ⟨retires trail handled, rfl, fun _ => Trail.substituted_of_handle handled⟩)

/-- Clauses with records that make up for them went, and variables with them. -/
theorem Takes.leads [Realm] (takes : Takes engine gone records names after)
    (present : ∀ record ∈ records, ∀ literal ∈ record.literals,
      engine.picture.Present literal.var)
    (unprotected : ∀ record ∈ records, ¬ engine.trail.Frozen record.chosen.var)
    (repairs : engine.arena.Irredundant → ∀ values,
      Picture.Holds { engine.picture with clauses := after.arena.contents } values →
      engine.picture.Holds (unwind records values)) (distinct : names.Nodup)
    (positive : ∀ name ∈ names, 0 < name) (kept : ∀ name ∈ names, ¬ engine.trail.Removed name)
    (retired : ∀ name ∈ names, ¬ engine.trail.Frozen name ∧ ∀ literals ∈ after.picture.formula,
      ∀ literal ∈ literals, literal.var ≠ name) : engine.Leads .removal after := by
  refine .of_steps ⟨takes.inStep, fun narrow => absurd rfl narrow, takes.accounts distinct kept, ?_,
    takes.dirty ▸ id, takes.unsat, takes.poisoned, takes.settings⟩ ?_ takes.applied
  · unfold Trail.Orderly
    rw [takes.root, takes.literals]
    exact id
  let weaker : Picture := { engine.picture with
    clauses := after.arena.contents
    records := after.records }
  have weakened : Step .removal engine.picture { weaker with pending := gone + 0 } := by
    change Step .removal engine.picture { engine.picture with
      clauses := after.arena.contents, pending := gone + 0, records := after.records }
    rw [takes.pushed]
    exact .weaken gone after.arena.contents records rfl takes.contents present unprotected repairs
  let reported : Picture := { weaker.logged (gone.map ProofStep.removed) with pending := 0 }
  have reports : Steps .removal { weaker with pending := gone + 0 } reported :=
    Steps.report_all weaker gone 0
  have sameFormula : reported.formula = after.picture.formula := by
    unfold Picture.formula
    change {literals | literals ∈ after.arena.contents ∨
      ∃ literal ∈ engine.trail.facts, literals = [literal]} = _
    rw [← takes.root]
    rfl
  have retires := Steps.retire_all reported names positive (by rw [sameFormula]; exact retired)
  have recast : Step .removal
      { reported with removed := fun name => name ∈ names ∨ reported.removed name }
      { reported with
        removed := fun name => name ∈ names ∨ reported.removed name
        irredundant := after.arena.Irredundant } :=
    .recast after.arena.Irredundant takes.irredundant
  have picture : after.picture = { reported with
      removed := fun name => name ∈ names ∨ reported.removed name
      irredundant := after.arena.Irredundant } := by
    have removedAfter : after.trail.Removed = fun name => name ∈ names ∨ engine.trail.Removed name :=
      funext fun name => propext (takes.removed name)
    have logAfter : after.proof.map Array.toList =
      engine.picture.log.map (· ++ gone.map ProofStep.removed) := takes.log
    unfold Engine.picture
    rw [takes.numVars, takes.frozen, removedAfter, takes.root, logAfter]
    rfl
  rw [picture]
  exact ((Relation.ReflTransGen.single weakened).trans (reports.trans retires)).tail recast

/-! ## Clauses that take the place of others -/

variable {base : Engine} {allowed : Literal → Prop}

/-- The live clauses are kept, perhaps with other marks, and those that came are
over allowed literals. -/
structure Adds (base : Engine) (allowed : Literal → Prop) (after : Engine) : Prop where
  older : ∀ handle clause, base.arena.live? handle = some clause →
    ∃ copy, after.arena.live? handle = some copy ∧ copy.literals = clause.literals
  newer : ∀ handle copy, after.arena.live? handle = some copy →
    (∃ clause, base.arena.live? handle = some clause ∧ clause.literals = copy.literals) ∨
      ∀ literal ∈ copy.literals, allowed literal
  root : ∀ literal ∈ after.trail.facts,
    literal ∈ base.trail.facts ∨ allowed literal
  flags : base.trail.SameFlags after.trail

theorem Adds.refl : Adds engine allowed engine :=
  ⟨fun _ clause live => ⟨clause, live, rfl⟩, fun _ copy live => .inl ⟨copy, live, rfl⟩,
    fun _ member => .inl member, .refl _⟩

theorem Adds.trans (first : Adds base allowed middle) (second : Adds middle allowed after) :
    Adds base allowed after := by
  refine ⟨fun handle clause live => ?_, fun handle copy live => ?_, fun literal member => ?_,
    first.flags.trans second.flags⟩
  · obtain ⟨kept, liveKept, same⟩ := first.older handle clause live
    obtain ⟨copy, liveCopy, sameAgain⟩ := second.older handle kept liveKept
    exact ⟨copy, liveCopy, sameAgain.trans same⟩
  · rcases second.newer handle copy live with ⟨kept, liveKept, same⟩ | new
    · rcases first.newer handle kept liveKept with ⟨clause, liveClause, sameAgain⟩ | new
      · exact .inl ⟨clause, liveClause, sameAgain.trans same⟩
      · exact .inr (same ▸ new)
    · exact .inr new
  · rcases second.root literal member with earlier | new
    · exact first.root literal earlier
    · exact .inr new

/-- New clauses are added. -/
theorem Adds.of_grows (grows : engine.Grows allowed after) : Adds engine allowed after := by
  refine ⟨fun handle clause live => ?_, fun handle copy live => ?_, grows.root, grows.flags⟩
  · obtain ⟨found, alive⟩ := Arena.live?_eq_some.1 live
    exact ⟨clause, Arena.live?_eq_some.2 ⟨grows.older handle clause found, alive⟩, rfl⟩
  · obtain ⟨found, alive⟩ := Arena.live?_eq_some.1 live
    rcases grows.newer handle copy found with old | new
    · exact .inl ⟨copy, Arena.live?_eq_some.2 ⟨old, alive⟩, rfl⟩
    · exact .inr new

/-- The same clauses add nothing. -/
theorem Adds.of_sameClauses (same : engine.arena.SameClauses after.arena)
    (trail : after.trail = engine.trail) : Adds engine allowed after := by
  refine ⟨fun handle clause live => ?_, fun handle copy live => ?_, fun literal member => ?_, ?_⟩
  · obtain ⟨copy, liveCopy, literals, _⟩ := same.live?_back live
    exact ⟨copy, liveCopy, literals⟩
  · obtain ⟨found, alive⟩ := Arena.live?_eq_some.1 live
    obtain ⟨current, slot⟩ := Arena.get?_eq_some.1 found
    obtain ⟨clause, slotBefore, literals, dead, _⟩ := same.slots _ copy slot
    refine .inl ⟨clause, Arena.live?_eq_some.2 ⟨Arena.get?_eq_some.2 ⟨?_, slotBefore⟩, ?_⟩,
      literals.symm⟩
    · rw [← same.epoch, current]
    · rw [← dead, alive]
  · exact .inl (trail ▸ member)
  · rw [trail]
    exact .refl _

/-- What the formula contains it goes on to contain. -/
theorem Adds.contains [Realm] {scope : Scope} (adds : Adds engine allowed after)
    (inStep : engine.InStep) (leads : engine.Leads scope after)
    (contains : engine.picture.Contains literals) : after.picture.Contains literals := by
  obtain ⟨part, clause | ⟨unit, atRoot, rfl⟩, small⟩ := contains
  · obtain ⟨slot, found, atSlot, alive, rfl⟩ := Arena.mem_contents.1 clause
    obtain ⟨copy, live, same⟩ := adds.older _ found (Arena.live?_handleAt inStep.space.le atSlot alive)
    exact ⟨found.literals, .inl (same ▸ Arena.contents_of_live live), small⟩
  · exact ⟨[unit], .inr ⟨unit, leads.mem_root atRoot, rfl⟩, small⟩

/-- A clause holds if the parts of it in a formula do, and there are some. -/
theorem clauseHolds_of_parts {formula : Set (List Literal)} {values : Assignment}
    (covered : hasComplements (sortedLiterals literals) = true ∨ ∃ part ∈ formula, part ⊆ literals)
    (present : OverVars literals)
    (parts : ∀ part ∈ formula, part ⊆ literals → ClauseHolds values part) :
    ClauseHolds values literals := by
  rcases covered with tautology | ⟨part, inFormula, small⟩
  · refine clauseHolds_sortedLiterals.1 (clauseHolds_of_hasComplements ?_ tautology)
    exact fun literal member => present literal (mem_sortedLiterals.1 member)
  · exact (parts part inFormula small).of_subset fun literal member => small member

/-- The formula holds a part of a clause, or no assignment falsifies the clause. -/
def Covered (engine : Engine) (literals : List Literal) : Prop :=
  hasComplements (sortedLiterals literals) = true ∨ engine.picture.Contains literals

theorem Covered.of_adds [Realm] {scope : Scope} (covered : Covered engine literals)
    (adds : Adds engine allowed after) (inStep : engine.InStep) (leads : engine.Leads scope after) :
    Covered after literals :=
  covered.imp_right fun contains => adds.contains inStep leads contains

/-- A covered clause holds if the parts of it in the formula do. -/
theorem Covered.clauseHolds {values : Assignment} (covered : Covered engine literals)
    (present : OverVars literals)
    (parts : ∀ part ∈ engine.picture.formula, part ⊆ literals → ClauseHolds values part) :
    ClauseHolds values literals :=
  clauseHolds_of_parts covered present parts

end Engine

end CnfSimplifier
