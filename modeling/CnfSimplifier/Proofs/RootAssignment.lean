import CnfSimplifier.Trail
import CnfSimplifier.Literal.Lemmas
import CnfSimplifier.Proofs.Ending
import Mathlib.Data.List.Dedup

/-!
# Values and the trail

Every value stands on the trail: the *facts* are the true literals of the trail, and
a variable has a value exactly if a literal of it is a fact. All lookups of values
are read off this agreement.

On an orderly trail all literals are facts, each once. A trail gets out of order
only after the formula was refuted, when a probe takes back a value that was given
at the root.

At the root no decision level is open, and closing all levels changes nothing.
-/
namespace CnfSimplifier

/-- A literal is its variable with its sign. -/
theorem Literal.ofVar_var {literal : Literal} (present : 0 < literal.var) :
    Literal.ofVar literal.var literal.isPositive = literal := by
  have small : 2 * literal.var + 1 < UInt32.size := by
    have := literal.code.toNat_lt
    simp only [Literal.var, UInt32.size]
    omega
  exact Literal.ext_var (Literal.var_ofVar present small) (Literal.isPositive_ofVar present small)

/-- The complement of a positive literal is the negative one. -/
theorem Literal.complement_ofVar {name : Nat} {positive : Bool} (present : 0 < name)
    (small : 2 * name + 1 < UInt32.size) :
    (Literal.ofVar name positive).complement = Literal.ofVar name !positive := by
  have inside : 0 < (Literal.ofVar name positive).var := by
    rwa [Literal.var_ofVar present small]
  apply Literal.ext_var
  · rw [Literal.var_complement inside, Literal.var_ofVar present small,
      Literal.var_ofVar present small]
  · rw [Literal.isPositive_complement inside, Literal.isPositive_ofVar present small,
      Literal.isPositive_ofVar present small]

namespace Trail

variable {trail after : Trail} {literal : Literal} {name : Nat} {change : VarState → VarState}
  {level : Nat}

/-- The true literals of the trail, oldest first, each where it stands last. -/
def facts (trail : Trail) : List Literal :=
  (trail.literals.toList.filter fun literal => trail.literalValue? literal = some (some true)).dedup

/-- All literals of the trail are facts, and none stands there twice. -/
def Orderly (trail : Trail) : Prop := trail.facts = trail.literals.toList

/-- Every value stands on the trail. -/
def Agrees (trail : Trail) : Prop :=
  ∀ (literal : Literal) (state : VarState), 0 < literal.var →
    trail.vars[literal.var]? = some state → state.value = some literal.isPositive →
    literal ∈ trail.literals.toList

/-- Two trails have the same variables with the same marks, and count them alike. -/
structure SameFlags (trail after : Trail) : Prop where
  size : after.vars.size = trail.vars.size
  flags : ∀ name, after.flags? name = trail.flags? name
  eliminated : after.eliminated = trail.eliminated
  substituted : after.substituted = trail.substituted

theorem SameFlags.refl (trail : Trail) : SameFlags trail trail := ⟨rfl, fun _ => rfl, rfl, rfl⟩

theorem SameFlags.trans {last : Trail} (first : SameFlags trail after)
    (second : SameFlags after last) : SameFlags trail last :=
  ⟨second.size.trans first.size, fun name => (second.flags name).trans (first.flags name),
    second.eliminated.trans first.eliminated, second.substituted.trans first.substituted⟩

/-- The marks of all variables, in order. -/
theorem SameFlags.map_flags (same : SameFlags trail after) :
    after.vars.map VarState.flags = trail.vars.map VarState.flags := by
  apply Array.ext_getElem?
  intro name
  rw [Array.getElem?_map, Array.getElem?_map]
  exact same.flags name

theorem literalValue?_eq_some {value : Option Bool} :
    trail.literalValue? literal = some value ↔
      ∃ state, trail.vars[literal.var]? = some state ∧ literal.valueUnder state.value = value := by
  simp [literalValue?, value?]

theorem literalValue?_eq_true : trail.literalValue? literal = some (some true) ↔
    trail.value? literal.var = some (some literal.isPositive) := by
  unfold literalValue? Literal.valueUnder
  cases value : trail.value? literal.var with
  | none => simp
  | some known => cases known <;> simp

theorem mem_facts : literal ∈ trail.facts ↔ literal ∈ trail.literals.toList ∧
    trail.value? literal.var = some (some literal.isPositive) := by
  rw [facts, List.mem_dedup, List.mem_filter, decide_eq_true_iff, literalValue?_eq_true]

/-- A variable has at most one fact. -/
theorem nodup_facts (trail : Trail) : (trail.facts.map Literal.var).Nodup := by
  refine List.Nodup.map_on (fun first isFirst second isSecond same => ?_) (List.nodup_dedup _)
  obtain ⟨_, value⟩ := mem_facts.1 isFirst
  obtain ⟨_, again⟩ := mem_facts.1 isSecond
  rw [same, again] at value
  simp only [Option.some.injEq] at value
  exact Literal.ext_var same value.symm

/-- A trail is orderly if its literals are distinct and have their values. -/
theorem orderly_iff : trail.Orderly ↔ trail.literals.toList.Nodup ∧
    ∀ literal ∈ trail.literals.toList,
      trail.value? literal.var = some (some literal.isPositive) := by
  constructor
  · intro orderly
    rw [← orderly]
    exact ⟨List.nodup_dedup _, fun literal member => (mem_facts.1 member).2⟩
  · rintro ⟨nodup, holds⟩
    unfold Orderly facts
    rw [List.filter_eq_self.2 fun literal member => ?_, nodup.dedup]
    rw [decide_eq_true_iff, literalValue?_eq_true]
    exact holds literal member

theorem Orderly.nodup (orderly : trail.Orderly) :
    (trail.literals.toList.map Literal.var).Nodup := orderly ▸ trail.nodup_facts

theorem facts_congr (literals : after.literals = trail.literals)
    (values : ∀ name, after.value? name = trail.value? name) : after.facts = trail.facts := by
  unfold facts literalValue?
  simp only [literals, values]

/-- A value is told by a fact. -/
theorem Agrees.mem_facts_iff (agrees : trail.Agrees) (present : 0 < literal.var)
    {state : VarState} (found : trail.vars[literal.var]? = some state) :
    state.value = some literal.isPositive ↔ literal ∈ trail.facts := by
  have value : trail.value? literal.var = some state.value := by simp [value?, found]
  rw [mem_facts, value, Option.some.injEq]
  exact ⟨fun assigned => ⟨agrees literal state present found assigned, assigned⟩, And.right⟩

/-- A true literal is a fact. -/
theorem Agrees.mem_of_true (agrees : trail.Agrees) (present : 0 < literal.var)
    (value : trail.literalValue? literal = some (some true)) : literal ∈ trail.facts := by
  obtain ⟨state, found, holds⟩ := literalValue?_eq_some.1 value
  refine (agrees.mem_facts_iff present found).1 ?_
  simp only [Literal.valueUnder, Option.map_eq_some_iff, beq_iff_eq] at holds
  obtain ⟨sign, assigned, same⟩ := holds
  rw [assigned, same]

/-- The complement of a false literal is a fact. -/
theorem Agrees.mem_of_false (agrees : trail.Agrees) (present : 0 < literal.var)
    (value : trail.literalValue? literal = some (some false)) :
    literal.complement ∈ trail.facts := by
  obtain ⟨state, found, holds⟩ := literalValue?_eq_some.1 value
  have inside : 0 < literal.complement.var := by rwa [Literal.var_complement present]
  refine (agrees.mem_facts_iff inside (by rwa [Literal.var_complement present])).1 ?_
  rw [Literal.isPositive_complement present]
  simp only [Literal.valueUnder, Option.map_eq_some_iff] at holds
  obtain ⟨sign, assigned, differs⟩ := holds
  rw [assigned]
  cases sign <;> cases positive : literal.isPositive <;> simp_all

/-- A variable without a value has no fact. -/
theorem open_of_value? (value : trail.value? name = some none) :
    ∀ other ∈ trail.facts, other.var ≠ name := by
  rintro other member rfl
  rw [(mem_facts.1 member).2] at value
  cases value

/-- The variable of an open literal has no value. -/
theorem value?_of_open (isOpen : trail.literalValue? literal = some none) :
    trail.value? literal.var = some none := by
  obtain ⟨state, found, unassigned⟩ := literalValue?_eq_some.1 isOpen
  simp only [Literal.valueUnder, Option.map_eq_none_iff] at unassigned
  simp [value?, found, unassigned]

/-- The variable of an open literal has no fact. -/
theorem open_of_none (value : trail.literalValue? literal = some none) :
    ∀ other ∈ trail.facts, other.var ≠ literal.var :=
  open_of_value? (value?_of_open value)

/-- A variable without a fact has no value. -/
theorem Agrees.literalValue?_of_open (agrees : trail.Agrees) (present : 0 < literal.var)
    (inside : literal.var < trail.vars.size)
    (isOpen : ∀ other ∈ trail.facts, other.var ≠ literal.var) :
    trail.literalValue? literal = some none := by
  have found := Array.getElem?_eq_getElem inside
  have known : trail.literalValue? literal = some (literal.valueUnder trail.vars[literal.var].value) :=
    literalValue?_eq_some.2 ⟨_, found, rfl⟩
  rw [known]
  cases value : literal.valueUnder trail.vars[literal.var].value with
  | none => rfl
  | some sign =>
    rw [value] at known
    cases sign with
    | true => exact absurd rfl (isOpen _ (agrees.mem_of_true present known))
    | false =>
      exact absurd (Literal.var_complement present) (isOpen _ (agrees.mem_of_false present known))

/-- What is known of the variables after a change of one of them. -/
theorem vars_modify? (changed : trail.modify? name change = some after) :
    after = { trail with vars := trail.vars.modify name change } ∧ name < trail.vars.size := by
  unfold modify? at changed
  split at changed
  next inside =>
    simp only [Option.some.injEq] at changed
    exact ⟨changed.symm, inside⟩
  next => cases changed

/-- A change that leaves the marks. -/
theorem sameFlags_modify (vars : after.vars = trail.vars.modify name change)
    (keeps : ∀ state, (change state).flags = state.flags)
    (eliminated : after.eliminated = trail.eliminated)
    (substituted : after.substituted = trail.substituted) : SameFlags trail after := by
  refine ⟨by rw [vars, Array.size_modify], fun other => ?_, eliminated, substituted⟩
  unfold flags?
  rw [vars, Array.getElem?_modify]
  split
  · rw [Option.map_map]
    congr 1
    funext state
    exact keeps state
  · rfl

/-- A change that leaves the values. -/
theorem Agrees.of_same_values (agrees : trail.Agrees)
    (literals : after.literals = trail.literals)
    (values : ∀ name, after.value? name = trail.value? name) : after.Agrees := by
  intro literal state present found assigned
  have value := values literal.var
  unfold value? at value
  rw [found, Option.map_some, eq_comm, Option.map_eq_some_iff] at value
  obtain ⟨old, foundOld, same⟩ := value
  rw [literals]
  exact agrees literal old present foundOld (same.trans assigned)

theorem value?_modify_of_keeps (vars : after.vars = trail.vars.modify name change)
    (keeps : ∀ state, (change state).value = state.value) (other : Nat) :
    after.value? other = trail.value? other := by
  unfold value?
  rw [vars, Array.getElem?_modify]
  split
  · rw [Option.map_map]
    congr 1
    funext state
    exact keeps state
  · rfl

/-! ## Assigning -/

/-- A literal with a place in the table can be assigned. -/
theorem exists_push (inside : literal.var < trail.vars.size) (level : Nat) :
    ∃ after, trail.push literal level = some after := by
  simp [push, modify?, inside]

/-- What assigning a literal does. -/
theorem push_eq_some (pushed : trail.push literal level = some after) :
    after.vars = trail.vars.modify literal.var
        (fun state => { state with value := some literal.isPositive, level := level }) ∧
      after.literals = trail.literals.push literal ∧ after.levels = trail.levels ∧
      after.head = trail.head := by
  simp only [push, Option.bind_eq_bind, Option.bind_eq_some_iff, Option.pure_def,
    Option.some.injEq] at pushed
  obtain ⟨middle, changed, rfl⟩ := pushed
  obtain ⟨rfl, _⟩ := vars_modify? changed
  exact ⟨rfl, rfl, rfl, rfl⟩

theorem value?_push (pushed : trail.push literal level = some after) (name : Nat) :
    after.value? name = if name = literal.var then (trail.value? name).map fun _ =>
      some literal.isPositive else trail.value? name := by
  unfold value?
  rw [(push_eq_some pushed).1, Array.getElem?_modify]
  by_cases same : name = literal.var
  · simp [same, Function.comp_def]
  · simp [same, Ne.symm same]

/-- A literal that is assigned stands on the trail. -/
theorem Agrees.push (agrees : trail.Agrees) (pushed : trail.push literal level = some after) :
    after.Agrees := by
  obtain ⟨vars, literals, _, _⟩ := push_eq_some pushed
  intro other state present found assigned
  rw [literals, Array.toList_push, List.mem_append, List.mem_singleton]
  rw [vars, Array.getElem?_modify] at found
  split at found
  next same =>
    obtain ⟨old, _, rfl⟩ := Option.map_eq_some_iff.1 found
    exact .inr (Literal.ext_var same.symm (Option.some.inj assigned).symm)
  next => exact .inl (agrees other state present found assigned)

/-- A new item at the end takes the place of its earlier copies, which did not count
before. -/
theorem dedup_filter_concat {earlier now : Literal → Bool} (own : now literal = true)
    (absent : earlier literal = false)
    (others : ∀ other, other ≠ literal → now other = earlier other) (literals : List Literal) :
    ((literals ++ [literal]).filter now).dedup = (literals.filter earlier).dedup ++ [literal] := by
  induction literals with
  | nil => simp [own]
  | cons other rest ih =>
    by_cases same : other = literal
    · subst same
      rw [List.cons_append, List.filter_cons_of_pos own, List.filter_cons_of_neg (by simp [absent]),
        List.dedup_cons_of_mem (by simp [own]), ih]
    · rw [List.cons_append, List.filter_cons, List.filter_cons, others other same]
      split
      next counts =>
        by_cases again : other ∈ rest
        · rw [List.dedup_cons_of_mem (by simp [again, others other same, counts]), ih,
            List.dedup_cons_of_mem (by simp [again, counts])]
        · rw [List.dedup_cons_of_notMem (by simp [again, same]), ih,
            List.dedup_cons_of_notMem (by simp [again]), List.cons_append]
      next => exact ih

/-- An open literal that is assigned is a new fact. -/
theorem facts_push (value : trail.literalValue? literal = some none)
    (pushed : trail.push literal level = some after) : after.facts = trail.facts ++ [literal] := by
  have isNone := value?_of_open value
  unfold facts
  rw [(push_eq_some pushed).2.1, Array.toList_push]
  refine dedup_filter_concat ?_ (by simp [value]) (fun other different => ?_) _
  · rw [decide_eq_true_iff, literalValue?_eq_true, value?_push pushed, if_pos rfl, isNone]
    rfl
  · rw [decide_eq_decide, literalValue?_eq_true, literalValue?_eq_true, value?_push pushed]
    split
    next same =>
      rw [same, isNone]
      simp only [Option.map_some, Option.some.injEq, reduceCtorEq, iff_false]
      exact fun sign => different (Literal.ext_var same sign.symm)
    next => rfl

/-- Assigning an open literal keeps order. -/
theorem Orderly.push (orderly : trail.Orderly) (value : trail.literalValue? literal = some none)
    (pushed : trail.push literal level = some after) : after.Orderly := by
  unfold Orderly
  rw [facts_push value pushed, (push_eq_some pushed).2.1, Array.toList_push, orderly]

/-- Assigning a literal changes no mark. -/
theorem sameFlags_push (pushed : trail.push literal level = some after) :
    SameFlags trail after := by
  have changed := pushed
  simp only [push, Option.bind_eq_bind, Option.bind_eq_some_iff, Option.pure_def,
    Option.some.injEq] at changed
  obtain ⟨middle, changed, same⟩ := changed
  obtain ⟨rfl, _⟩ := vars_modify? changed
  exact sameFlags_modify (push_eq_some pushed).1 (fun _ => rfl) (by rw [← same]) (by rw [← same])

/-! ## The root -/

/-- A trail at the root. Variables are named by less than 31 bits, and entry 0
belongs to none. -/
structure Sound (trail : Trail) : Prop where
  atRoot : trail.levels = #[]
  small : trail.vars.size ≤ 0x80000000
  nonempty : 0 < trail.vars.size
  agrees : trail.Agrees

/-- At the root there is nothing to close. -/
theorem cancelUntil_of_atRoot (atRoot : trail.levels = #[]) (level : Nat) :
    trail.cancelUntil level = some trail := by
  unfold cancelUntil
  rw [atRoot]
  rfl

theorem Sound.rootLiterals (sound : trail.Sound) : trail.rootLiterals = trail.literals.toList := by
  unfold Trail.rootLiterals numRoot
  rw [sound.atRoot]
  simp [← Array.length_toList]

/-- Variables of the formula have literals. -/
theorem Sound.small_of_lt (sound : trail.Sound) (inside : name < trail.vars.size) :
    2 * name + 1 < UInt32.size := by
  have := sound.small
  simp only [UInt32.size]
  omega

/-- A name up to the last one has an entry. -/
theorem lt_of_le_numVars (nonempty : 0 < trail.vars.size) (inRange : name ≤ trail.numVars) :
    name < trail.vars.size := by
  unfold numVars at inRange
  omega

theorem Sound.numVars_lt (sound : trail.Sound) : trail.numVars < 0x80000000 := by
  have small := sound.small
  have nonempty := sound.nonempty
  unfold numVars
  omega

/-- Assigning an open literal at the root pushes it. -/
theorem assignAtRoot_of_open (sound : trail.Sound)
    (value : trail.literalValue? literal = some none) :
    (assignAtRoot literal).Ends trail
      (fun _ after => trail.push literal 0 = some after) (fun _ _ => False) := by
  obtain ⟨state, found, _⟩ := literalValue?_eq_some.1 value
  have inside : literal.var < trail.vars.size := (Array.getElem?_eq_some_iff.1 found).1
  have isNone := value?_of_open value
  have cancel : Run.update (fun trail => cancelUntil trail 0) trail = .done () trail := by
    simp only [Run.update, cancelUntil_of_atRoot sound.atRoot]
  unfold assignAtRoot
  refine .step cancel (.step rfl ?_)
  have known : ¬ trail.numVars < literal.var := by
    unfold numVars
    omega
  rw [if_neg known, isNone]
  refine .step rfl ?_
  exact .update fun after pushed => pushed

end Trail

end CnfSimplifier
