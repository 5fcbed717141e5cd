import CnfSimplifier.Proofs.Intake

/-!
# What calls do

The calls between runs: adding variables and clauses, and protecting variables.
Each of them is described exactly, whether the formula is open or refuted.
-/
namespace CnfSimplifier

namespace Simplifier

variable {before simplifier after : Simplifier}

/-! ## Variables -/

/-- Some variables came in: they are open, unprotected and numbered on. -/
structure Widens (count : Nat) (before after : Simplifier) : Prop where
  numVars : after.numVars = before.numVars + count
  picture : after.engine.picture = { before.engine.picture with numVars := after.numVars }
  inStep : before.engine.InStep → after.engine.InStep
  orderly : before.engine.trail.Orderly → after.engine.trail.Orderly
  accounts : before.engine.trail.Accounts → after.engine.trail.Accounts
  dirty : after.engine.index.dirty = before.engine.index.dirty
  nonempty : 0 < after.engine.trail.vars.size
  unsat : after.engine.unsat = before.engine.unsat
  poisoned : after.engine.poisoned = before.engine.poisoned
  settings : after.engine.settings = before.engine.settings
  applied : after.engine.applied = before.engine.applied
  arena : after.engine.arena = before.engine.arena
  literals : after.engine.trail.literals = before.engine.trail.literals
  levels : after.engine.trail.levels = before.engine.trail.levels
  active : after.numbering.isActive = before.numbering.isActive
  names : before.numbering.isActive = true → after.numbering.names.toList =
    before.numbering.names.toList ++ List.range' (before.numVars + 1) count

theorem Widens.rootLiterals {count : Nat} (widens : before.Widens count after) :
    after.engine.trail.rootLiterals = before.engine.trail.rootLiterals := by
  unfold Trail.rootLiterals Trail.numRoot
  rw [widens.literals, widens.levels]

theorem Widens.refl (nonempty : 0 < simplifier.engine.trail.vars.size) :
    simplifier.Widens 0 simplifier :=
  ⟨rfl, rfl, id, id, id, rfl, nonempty, rfl, rfl, rfl, rfl, rfl, rfl, rfl, rfl,
    fun _ => (List.append_nil _).symm⟩

theorem Widens.trans {middle : Simplifier} {first second : Nat}
    (toMiddle : before.Widens first middle) (toAfter : middle.Widens second after) :
    before.Widens (first + second) after where
  numVars := by rw [toAfter.numVars, toMiddle.numVars, Nat.add_assoc]
  picture := by rw [toAfter.picture, toMiddle.picture]
  inStep inStep := toAfter.inStep (toMiddle.inStep inStep)
  orderly orderly := toAfter.orderly (toMiddle.orderly orderly)
  accounts accounts := toAfter.accounts (toMiddle.accounts accounts)
  dirty := toAfter.dirty.trans toMiddle.dirty
  nonempty := toAfter.nonempty
  unsat := toAfter.unsat.trans toMiddle.unsat
  poisoned := toAfter.poisoned.trans toMiddle.poisoned
  settings := toAfter.settings.trans toMiddle.settings
  applied := toAfter.applied.trans toMiddle.applied
  arena := toAfter.arena.trans toMiddle.arena
  literals := toAfter.literals.trans toMiddle.literals
  levels := toAfter.levels.trans toMiddle.levels
  active := toAfter.active.trans toMiddle.active
  names isActive := by
    rw [toAfter.names (toMiddle.active.trans isActive), toMiddle.names isActive,
      List.append_assoc, toMiddle.numVars]
    congr 1
    have joined := @List.range'_append (before.numVars + 1) first second 1
    rwa [Nat.one_mul, show before.numVars + 1 + first = before.numVars + first + 1 by omega]
      at joined

end Simplifier

/-- A trail with one more variable. -/
theorem Trail.flags?_push (trail : Trail) {name : Nat} {flags : VarFlags} :
    ({ trail with vars := trail.vars.push {} } : Trail).flags? name = some flags ↔
      trail.flags? name = some flags ∨ (name = trail.vars.size ∧ flags = {}) := by
  unfold flags?
  dsimp only
  rw [Array.getElem?_push]
  split
  next new =>
    subst new
    simp [eq_comm]
  next old => simp [old]

/-- A new variable has no value. -/
theorem Trail.value?_push_var (trail : Trail) (name : Nat) (sign : Bool) :
    ({ trail with vars := trail.vars.push {} } : Trail).value? name = some (some sign) ↔
      trail.value? name = some (some sign) := by
  unfold value?
  dsimp only
  rw [Array.getElem?_push]
  split
  next new =>
    subst new
    simp
  next => rfl

theorem Trail.facts_push_var (trail : Trail) :
    ({ trail with vars := trail.vars.push {} } : Trail).facts = trail.facts := by
  unfold facts
  simp only [literalValue?_eq_true, value?_push_var]

namespace Engine

variable {engine : Engine}

/-- The engine with one more variable. -/
def widened (engine : Engine) : Engine :=
  { engine with
    trail := { engine.trail with vars := engine.trail.vars.push {} }
    index := engine.index.addVar }

/-- The engine gets a variable more. -/
theorem handle_newVar_ends {done : Unit → Engine → Prop} {failed : Error → Engine → Prop}
    (holds : engine.trail.vars.size < 0x80000000 → done () engine.widened) :
    (handle .newVar).Ends engine done failed := by
  unfold handle
  refine .step rfl ?_
  split
  next room =>
    refine .step rfl (.of_done rfl (holds ?_))
    simpa [Trail.hasRoom] using room
  next => exact .stop

/-- A new variable changes the number of variables only. -/
theorem picture_widened (nonempty : 0 < engine.trail.vars.size) :
    engine.widened.picture = { engine.picture with numVars := engine.numVars + 1 } := by
  have size : engine.widened.trail.vars.size = engine.trail.vars.size + 1 := Array.size_push _
  have frozen : engine.widened.trail.Frozen = engine.trail.Frozen := by
    funext name
    refine propext ⟨?_, ?_⟩
    · rintro ⟨flags, found, isFrozen⟩
      rcases engine.trail.flags?_push.1 found with old | ⟨_, rfl⟩
      · exact ⟨flags, old, isFrozen⟩
      · cases isFrozen
    · rintro ⟨flags, found, isFrozen⟩
      exact ⟨flags, engine.trail.flags?_push.2 (.inl found), isFrozen⟩
  have removed : engine.widened.trail.Removed = engine.trail.Removed := by
    funext name
    refine propext ⟨?_, ?_⟩
    · rintro ⟨flags, found, isRemoved⟩
      rcases engine.trail.flags?_push.1 found with old | ⟨_, rfl⟩
      · exact ⟨flags, old, isRemoved⟩
      · cases isRemoved
    · rintro ⟨flags, found, isRemoved⟩
      exact ⟨flags, engine.trail.flags?_push.2 (.inl found), isRemoved⟩
  have numVars : engine.widened.numVars = engine.numVars + 1 := by
    change engine.widened.trail.vars.size - 1 = engine.trail.vars.size - 1 + 1
    omega
  have facts : engine.widened.trail.facts = engine.trail.facts := engine.trail.facts_push_var
  unfold picture
  rw [frozen, removed, numVars, facts]
  rfl

/-- With a new variable the parts of an engine are still in step. -/
theorem inStep_widened (room : engine.trail.vars.size < 0x80000000) (inStep : engine.InStep) :
    engine.widened.InStep := by
  have size : engine.widened.trail.vars.size = engine.trail.vars.size + 1 := Array.size_push _
  refine ⟨?_, ⟨inStep.trail.atRoot, ?_, ?_, ?_⟩, ?_⟩
  · rw [size, Nat.mul_succ]
    exact inStep.toFiled.addVar
  · omega
  · omega
  · intro literal state present found assigned
    change (engine.trail.vars.push {})[literal.var]? = some state at found
    rw [Array.getElem?_push] at found
    split at found
    next new =>
      cases found
      cases assigned
    next old => exact inStep.trail.agrees literal state present found assigned
  · have facts : engine.widened.trail.facts = engine.trail.facts := engine.trail.facts_push_var
    rw [facts]
    exact inStep.due

/-- With a new variable the trail still accounts for its literals. -/
theorem accounts_widened (accounts : engine.trail.Accounts) : engine.widened.trail.Accounts where
  eliminated := by
    change engine.trail.eliminated = ((engine.trail.vars.push {}).map _).countP _
    rw [Array.map_push, Array.countP_push_of_neg (by decide), accounts.eliminated]
  substituted := by
    change engine.trail.substituted = ((engine.trail.vars.push {}).map _).countP _
    rw [Array.map_push, Array.countP_push_of_neg (by decide), accounts.substituted]
  apart name flags found := by
    rcases engine.trail.flags?_push.1 found with old | ⟨_, rfl⟩
    · exact accounts.apart name flags old
    · decide

end Engine

namespace Simplifier

variable {before simplifier after : Simplifier} {failed : Error → Simplifier → Prop}

theorem own_numberVar (name : Nat) (tools : Toolbox) :
    (numberVar name tools).renumbering.own = if tools.renumbering.own.isActive then
      (tools.renumbering.own.push name).2 else tools.renumbering.own := by
  unfold numberVar
  dsimp only
  split <;> rfl

/-- A new variable: the engine is widened, and a numbering in effect goes on. -/
theorem newVar_ends {done : Nat → Simplifier → Prop}
    (holds : simplifier.engine.trail.vars.size < 0x80000000 → ∀ tools : Toolbox,
      tools.renumbering.own = (if simplifier.numbering.isActive then
        (simplifier.numbering.push simplifier.engine.widened.numVars).2
        else simplifier.numbering) →
      done simplifier.engine.widened.numVars
        { simplifier with engine := simplifier.engine.widened, tools := tools }) :
    newVar.Ends simplifier done failed := by
  unfold newVar handle
  refine .seq (.seq (ends_onEngine (Engine.handle_newVar_ends fun room => ?_)))
  refine updateTools_ends fun tools handled => ?_
  obtain rfl := Option.some.inj handled
  refine .step rfl (.seq (updateTools_ends fun tools numbered => ?_))
  obtain rfl := Option.some.inj numbered
  refine .pure (holds room _ ?_)
  exact own_numberVar _ (Toolbox.handle .newVar simplifier.tools)

/-- A new variable widens the simplifier by one. -/
theorem newVar_widens (nonempty : 0 < simplifier.engine.trail.vars.size) :
    newVar.Ends simplifier (fun _ after => simplifier.Widens 1 after) failed := by
  refine newVar_ends fun room tools own => ?_
  have picture := Engine.picture_widened nonempty
  have numVars : simplifier.engine.widened.numVars = simplifier.numVars + 1 :=
    congrArg Picture.numVars picture
  constructor
  case numVars => exact numVars
  case picture =>
    change _ = { simplifier.engine.picture with numVars := simplifier.engine.widened.numVars }
    rw [numVars]
    exact picture
  case inStep => exact Engine.inStep_widened room
  case orderly =>
    intro orderly
    exact simplifier.engine.trail.facts_push_var.trans orderly
  case accounts => exact Engine.accounts_widened
  case nonempty =>
    change 0 < (simplifier.engine.trail.vars.push {}).size
    rw [Array.size_push]
    omega
  case active =>
    change tools.renumbering.own.isActive = _
    rw [own]
    split
    next active => exact active.symm
    next => rfl
  case names =>
    intro active
    change tools.renumbering.own.names.toList = _
    rw [own, if_pos active, numVars]
    exact Array.toList_push
  all_goals rfl

/-- New variables widen the simplifier by their number. -/
theorem newVars_widens (count : Nat) (nonempty : 0 < simplifier.engine.trail.vars.size) :
    (newVars count).Ends simplifier (fun _ after => simplifier.Widens count after) failed := by
  induction count generalizing simplifier with
  | zero => exact .pure (.refl nonempty)
  | succ count ih =>
    refine (newVar_widens nonempty).bind fun _ middle first => ?_
    refine (ih first.nonempty).imp (fun _ last rest => ?_) fun _ _ held => held
    exact Nat.add_comm count 1 ▸ first.trans rest

/-- Making room for variables adds none or some. -/
theorem reserve_widens (numVars : Nat) (nonempty : 0 < simplifier.engine.trail.vars.size) :
    (reserve numVars).Ends simplifier
      (fun _ after => ∃ count, simplifier.Widens count after) failed := by
  unfold reserve
  refine .step rfl ((newVars_widens _ nonempty).imp ?_ fun _ _ held => held)
  exact fun _ after widens => ⟨_, widens⟩

/-! ## Reading clauses -/

/-- A variable that is there and was not removed passes the check. -/
theorem checkPresent_ends {literal : Literal} {done : Unit → Simplifier → Prop}
    (present : literal.var < simplifier.engine.trail.vars.size →
      ¬ simplifier.engine.trail.Removed literal.var → done () simplifier)
    (removed : failed .invalidLiteral simplifier) :
    (checkPresent literal).Ends simplifier done failed := by
  unfold checkPresent
  refine Run.Looks.read.bind fun flags found => ?_
  split
  · exact .fail removed
  next kept =>
    obtain ⟨state, atName, _⟩ := Option.map_eq_some_iff.1 found
    refine .pure (present (Array.getElem?_eq_some_iff.1 atName).1 ?_)
    rintro ⟨other, foundOther, isRemoved⟩
    rw [found, Option.some.injEq] at foundOther
    exact kept (foundOther ▸ isRemoved)

theorem Widens.removed {count : Nat} (widens : before.Widens count after) :
    after.engine.trail.Removed = before.engine.trail.Removed :=
  congrArg Picture.removed widens.picture

/-- The literals of a clause are read, and their variables are there. -/
theorem readLiterals_widens (clause : List Int)
    (nonempty : 0 < simplifier.engine.trail.vars.size) :
    (readLiterals clause).Ends simplifier
      (fun literals after => (∃ count, simplifier.Widens count after) ∧
        literals = clause.map Literal.ofInt ∧ ∀ literal ∈ literals,
          literal.var ≤ after.numVars ∧ ¬ after.engine.trail.Removed literal.var)
      (fun cause after => cause.isUnsat = false ∧ ∃ count, simplifier.Widens count after) := by
  induction clause generalizing simplifier with
  | nil => exact .pure ⟨⟨0, .refl nonempty⟩, rfl, by simp⟩
  | cons value rest ih =>
    by_cases zero : value = 0
    · subst zero
      exact .fail ⟨rfl, 0, .refl nonempty⟩
    rw [readLiterals.eq_3 value rest zero]
    refine (reserve_widens _ nonempty).bind ?_
    rintro _ middle ⟨count, widens⟩
    refine .seq (checkPresent_ends (fun inside kept => ?_) ⟨rfl, count, widens⟩)
    refine .seq ((ih widens.nonempty).imp ?_ ?_)
    · rintro _ after ⟨⟨more, further⟩, rfl, present⟩
      refine .pure ⟨⟨_, widens.trans further⟩, rfl, List.forall_mem_cons.2 ⟨⟨?_, ?_⟩, present⟩⟩
      · rw [further.numVars]
        refine Nat.le_add_right_of_le ?_
        change _ ≤ middle.engine.trail.vars.size - 1
        omega
      · rw [further.removed]
        exact kept
    · rintro cause after ⟨isOpen, more, further⟩
      exact ⟨isOpen, _, widens.trans further⟩

/-! ## Adding clauses -/

/-- What adding a clause came to. -/
inductive Adds (before : Simplifier) (clause : List Int) : Option Error → Simplifier → Prop
  /-- The clause was stored. -/
  | stored {count : Nat} {middle after : Simplifier} (widens : before.Widens count middle)
    (present : ∀ literal ∈ clause.map Literal.ofInt, 0 < literal.var ∧
      literal.var ≤ middle.numVars ∧ ¬ middle.engine.trail.Removed literal.var)
    (stores : middle.engine.Stores (clause.map Literal.ofInt) after.engine)
    (numbering : after.numbering = middle.numbering) : Adds before clause none after
  /-- The clause refuted the formula. -/
  | refuted {count : Nat} {middle after : Simplifier} {cause : Error}
    (widens : before.Widens count middle) (isUnsat : cause.isUnsat = true)
    (present : ∀ literal ∈ clause.map Literal.ofInt, 0 < literal.var ∧
      literal.var ≤ middle.numVars)
    (noModel : ∀ values, middle.engine.picture.Holds values →
      ¬ ClauseHolds values (clause.map Literal.ofInt))
    (engine : ∃ proof, (middle.engine.proof = none → proof = none) ∧
      after.engine = { middle.engine with unsat := true, proof := proof })
    (numbering : after.numbering = middle.numbering) : Adds before clause (some cause) after
  /-- The clause was refused. -/
  | refused {count : Nat} {after : Simplifier} {cause : Error}
    (widens : before.Widens count after) (notUnsat : cause.isUnsat = false) :
    Adds before clause (some cause) after

/-- A clause with a literal of no variable is refused. -/
theorem importClause_of_not_present {engine : Engine} {literals : List Literal}
    (absent : ¬ ∀ literal ∈ literals, 0 < literal.var) :
    Engine.importClause literals false engine = .failed .outOfRange engine := by
  have found : (literals.any fun l => engine.numVars < l.var || l.var == 0) = true := by
    simp only [not_forall, Nat.not_lt, Nat.le_zero] at absent
    obtain ⟨literal, member, isZero⟩ := absent
    exact List.any_eq_true.2 ⟨literal, member, by simp [isZero]⟩
  unfold Engine.importClause Engine.storeClause
  rw [Run.bind_of_done (Run.get_apply engine), if_pos found]
  rfl

/-- A notice changes nothing. -/
theorem Widens.tell {count : Nat} (widens : before.Widens count after) (notice : Notice) :
    before.Widens count { after with
      engine := { after.engine with notices := after.engine.notices.push notice } } :=
  { widens with inStep := fun inStep => (widens.inStep inStep).of_same rfl rfl rfl rfl }

/-- How adding a clause ends. -/
theorem addClause_ends (clause : List Int) (inStep : simplifier.engine.InStep) :
    (addClause clause).Ends simplifier (fun _ after => simplifier.Adds clause none after)
      (fun cause after => simplifier.Adds clause (some cause) after) := by
  unfold addClause
  refine .seq ((readLiterals_widens clause inStep.trail.nonempty).imp ?_ ?_)
  swap
  · rintro cause after ⟨notUnsat, count, widens⟩
    exact .refused widens notUnsat
  rintro _ middle ⟨⟨count, widens⟩, rfl, there⟩
  refine .seq (ends_onEngine (.attempt ?_))
  by_cases overVars : ∀ literal ∈ clause.map Literal.ofInt, 0 < literal.var
  · have present : ∀ literal ∈ clause.map Literal.ofInt, 0 < literal.var ∧
        literal.var ≤ middle.numVars ∧ ¬ middle.engine.trail.Removed literal.var :=
      fun literal member => ⟨overVars literal member, there literal member⟩
    refine (Engine.importClause_ends (widens.inStep inStep) present).imp ?_ ?_
    · exact fun _ engine stores => .pure (.stored widens present stores rfl)
    · rintro cause _ ⟨rfl, isUnsat, noModel⟩
      have inRange : ∀ literal ∈ clause.map Literal.ofInt, 0 < literal.var ∧
          literal.var ≤ middle.numVars := fun literal member =>
        ⟨overVars literal member, (there literal member).1⟩
      refine .seq (ends_onEngine ?_)
      unfold Engine.conclude
      dsimp only
      rw [if_pos isUnsat]
      refine .step rfl ?_
      split
      next already =>
        refine .step rfl (.pure (.fail ?_))
        refine .refuted widens isUnsat inRange noModel ⟨middle.engine.proof, id, ?_⟩ rfl
        rw [← already]
      next =>
        refine .step rfl (.step rfl (.pure (.fail ?_)))
        exact .refuted widens isUnsat inRange noModel ⟨_, fun untold => by simp [untold], rfl⟩ rfl
  · refine .of_failed (importClause_of_not_present overVars) ?_
    refine .seq (ends_onEngine ?_)
    exact .of_done rfl (.fail (.refused (widens.tell _) rfl))

end Simplifier

/-! ## Protection -/

/-- The assignment after the protection of a variable was switched. -/
structure Trail.Switches (trail : Trail) (name : Nat) (on : Bool) (after : Trail) : Prop where
  inside : name < trail.vars.size
  sound : trail.Sound → after.Sound
  literals : after.literals = trail.literals
  facts : after.facts = trail.facts
  accounts : trail.Accounts → after.Accounts
  size : after.vars.size = trail.vars.size
  frozen : ∀ other, after.Frozen other ↔ if other = name then on = true else trail.Frozen other
  removed : after.Removed = trail.Removed

/-- Protection does not matter to how many variables have another mark. -/
theorem Trail.countP_flags_of_keeps {trail after : Trail} {name : Nat} {on : Bool}
    {mark : VarFlags → Bool}
    (vars : after.vars = trail.vars.modify name fun state =>
      { state with flags := state.flags.set .frozen on })
    (keeps : ∀ flags, mark (VarFlags.set flags .frozen on) = mark flags) :
    (after.vars.map VarState.flags).countP mark = (trail.vars.map VarState.flags).countP mark := by
  have same : (after.vars.map VarState.flags).map mark =
      (trail.vars.map VarState.flags).map mark := by
    apply Array.ext_getElem?
    intro place
    rw [vars]
    simp only [Array.getElem?_map, Array.getElem?_modify]
    split <;> simp [Option.map_map, Function.comp_def, keeps]
  have counted : ∀ marks : Array VarFlags, marks.countP mark = (marks.map mark).countP id :=
    fun marks => (@Array.countP_map _ _ id mark marks).symm
  rw [counted, counted, same]

/-- Setting the flag of a variable switches it and no other. -/
theorem Trail.switches_of_setFlag {trail after : Trail} {name : Nat} {on : Bool}
    (set : trail.setFlag name .frozen on = some after) : trail.Switches name on after := by
  obtain ⟨same, inside⟩ := vars_modify? set
  have vars : after.vars = trail.vars.modify name fun state =>
      { state with flags := state.flags.set .frozen on } := by rw [same]
  have literals : after.literals = trail.literals := by rw [same]
  have levels : after.levels = trail.levels := by rw [same]
  have size : after.vars.size = trail.vars.size := by rw [vars, Array.size_modify]
  have flags : ∀ other, after.flags? other =
      if other = name then (trail.flags? name).map fun flags => flags.set .frozen on
      else trail.flags? other := by
    intro other
    unfold flags?
    rw [vars, Array.getElem?_modify]
    by_cases same : name = other
    · subst same
      simp [Option.map_map, Function.comp_def]
    · simp [same, Ne.symm same]
  obtain ⟨old, known⟩ : ∃ old, trail.flags? name = some old := by
    unfold flags?
    rw [Array.getElem?_eq_getElem inside]
    exact ⟨_, rfl⟩
  have values := value?_modify_of_keeps vars fun _ => rfl
  refine ⟨inside, fun sound => ⟨levels.trans sound.atRoot, size.trans_le sound.small,
    size.symm ▸ sound.nonempty, ?_⟩, literals, facts_congr literals values, fun accounts => ?_, size,
    ?_, ?_⟩
  · exact sound.agrees.of_same_values literals values
  · have marks := fun mark keeps => @countP_flags_of_keeps trail after name on mark vars keeps
    refine ⟨?_, ?_, fun other flagsNow found => ?_⟩
    · rw [marks _ fun _ => rfl, same]
      exact accounts.eliminated
    · rw [marks _ fun _ => rfl, same]
      exact accounts.substituted
    · rw [flags] at found
      split at found
      next =>
        rw [known] at found
        cases found
        exact accounts.apart name old known
      next => exact accounts.apart other flagsNow found
  · intro other
    unfold Frozen
    rw [flags]
    split
    · simp [known, VarFlags.set]
    · rfl
  · funext other
    unfold Removed
    rw [flags]
    split
    next same =>
      subst same
      rw [known]
      simp [VarFlags.set, VarFlags.isRemoved]
    next => rfl

namespace Simplifier

variable {simplifier : Simplifier} {name : Nat}

/-- Protecting a variable. -/
theorem freeze_ends (small : simplifier.numVars < 2 ^ 31) : (freeze name).Ends simplifier
    (fun _ after => 0 < name ∧ name ≤ simplifier.numVars ∧
      ¬ simplifier.engine.trail.Removed name ∧
      ∃ trail, simplifier.engine.trail.Switches name true trail ∧
        after = { simplifier with engine := { simplifier.engine with trail := trail } })
    (fun _ after => after = simplifier) := by
  unfold freeze
  refine .step rfl ?_
  split
  · exact .fail rfl
  next inRange =>
    simp only [Bool.or_eq_true, decide_eq_true_eq, not_or, Nat.not_lt] at inRange
    obtain ⟨nonzero, inside⟩ := inRange
    have isName : (Literal.ofVar name true).var = name :=
      Literal.var_ofVar (Nat.pos_of_ne_zero nonzero) (by simp only [UInt32.size]; omega)
    refine .seq (checkPresent_ends (fun _ kept => ?_) rfl)
    refine ends_onEngine (Engine.updateTrail_ends fun trail set => ?_)
    exact ⟨Nat.pos_of_ne_zero nonzero, inside, isName ▸ kept, trail,
      Trail.switches_of_setFlag set, rfl⟩

/-- Taking the protection of a variable back. -/
theorem unfreeze_ends : (unfreeze name).Ends simplifier
    (fun _ after => ∃ trail, simplifier.engine.trail.Switches name false trail ∧
      after = { simplifier with engine := { simplifier.engine with trail := trail } })
    (fun _ after => after = simplifier) := by
  unfold unfreeze
  refine .step rfl ?_
  split
  · exact .fail rfl
  · refine ends_onEngine (Engine.updateTrail_ends fun trail set => ?_)
    exact ⟨trail, Trail.switches_of_setFlag set, rfl⟩

end Simplifier

end CnfSimplifier
