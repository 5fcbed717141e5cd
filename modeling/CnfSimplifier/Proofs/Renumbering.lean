import CnfSimplifier.Proofs.Extension
import CnfSimplifier.Proofs.Numbering
import CnfSimplifier.Proofs.Backtracking
import CnfSimplifier.Proofs.RootAssignment

/-!
# Translating between variables and numbers

A numbering is read in both directions. The two directions agree as long as no variable is numbered
twice, also when variables are numbered later on: then variables and numbers are translated into each
other, literals with their signs, and a model over the numbers gives each variable the value of its
number.

What is numbered first are the variables in live clauses, the protected ones and those with a value.
Values need not be facts: while a level is open the numbering also has the variables that were
assigned there. Without open levels these are the root literals.
-/
namespace CnfSimplifier.Numbering

variable {numbering : Numbering} {engine : Engine} {name number : Nat} {literal other : Literal}
  {pushed : List Nat}

/-! ## Numberings without repetitions -/

/-- Every numbered variable is one that a literal can have, and none is numbered twice. -/
structure Plain (numbering : Numbering) : Prop where
  distinct : numbering.names.toList.Nodup
  inRange : ∀ name ∈ numbering.names.toList, 0 < name ∧ name < 2 ^ 31

/-- Number some more variables, one after the other. -/
def pushAll (numbering : Numbering) (names : List Nat) : Numbering :=
  names.foldl (fun numbering name => (numbering.push name).2) numbering

/-- Names are kept in the order of the calls. -/
theorem names_pushAll : (numbering.pushAll pushed).names.toList =
    numbering.names.toList ++ pushed := by
  induction pushed generalizing numbering with
  | nil => exact (List.append_nil _).symm
  | cons name rest ih =>
    change ((numbering.push name).2.pushAll rest).names.toList = _
    rw [ih]
    simp [push, names]

namespace Plain

/-- Numbers count the names from one. -/
theorem varOf?_succ (plain : numbering.Plain) {place : Nat} :
    numbering.varOf? (place + 1) = some name ↔ numbering.names.toList[place]? = some name := by
  unfold varOf?
  rw [Array.getElem?_toList, Option.filter_eq_some_iff]
  constructor
  · exact And.left
  · intro found
    have member : name ∈ numbering.names.toList :=
      Array.mem_toList_iff.2 (Array.mem_of_getElem? found)
    exact ⟨found, decide_eq_true (plain.inRange name member).1⟩

/-- Both directions agree. -/
theorem number?_iff_varOf? (plain : numbering.Plain) :
    numbering.number? name = some number ↔ numbering.varOf? number = some name := by
  rw [number?_eq_some plain.distinct]
  constructor
  · rintro ⟨place, found, rfl⟩
    exact plain.varOf?_succ.2 found
  · intro found
    cases number with
    | zero => cases found
    | succ place => exact ⟨place, plain.varOf?_succ.1 found, rfl⟩

/-- The numbers are used up without gaps. -/
theorem exists_varOf?_iff (plain : numbering.Plain) :
    (∃ name, numbering.varOf? number = some name) ↔ 0 < number ∧ number ≤ numbering.size := by
  cases number with
  | zero =>
    constructor
    · rintro ⟨name, found⟩
      cases found
    · rintro ⟨impossible, _⟩
      exact absurd impossible (Nat.lt_irrefl 0)
  | succ place =>
    simp only [plain.varOf?_succ, List.getElem?_eq_some_iff]
    constructor
    · rintro ⟨name, inside, _⟩
      exact ⟨Nat.succ_pos place, inside⟩
    · rintro ⟨_, inside⟩
      exact ⟨_, inside, rfl⟩

/-- Listed names have a number. -/
theorem exists_number?_iff (plain : numbering.Plain) :
    (∃ number, numbering.number? name = some number) ↔ name ∈ numbering.names.toList := by
  simp only [number?_eq_some plain.distinct, List.mem_iff_getElem?]
  constructor
  · rintro ⟨_, place, found, _⟩
    exact ⟨place, found⟩
  · rintro ⟨place, found⟩
    exact ⟨place + 1, place, found, rfl⟩

/-- There are no more numbers than variables of literals. -/
theorem size_lt (plain : numbering.Plain) : numbering.size < 2 ^ 31 := by
  have inside : numbering.names.toList ⊆ List.range' 1 (2 ^ 31 - 1) := by
    intro name member
    obtain ⟨positive, small⟩ := plain.inRange name member
    exact List.mem_range'_1.2 ⟨positive, by omega⟩
  have short := (List.subperm_of_subset plain.distinct inside).length_le
  rw [List.length_range'] at short
  change numbering.names.size < 2 ^ 31
  rw [← Array.length_toList]
  omega

theorem fits_number (plain : numbering.Plain) (found : numbering.number? name = some number) :
    0 < number ∧ 2 * number + 1 < UInt32.size := by
  obtain ⟨positive, inside⟩ :=
    plain.exists_varOf?_iff.1 ⟨name, plain.number?_iff_varOf?.1 found⟩
  have bound := plain.size_lt
  exact ⟨positive, by simp only [UInt32.size]; omega⟩

theorem fits_name (plain : numbering.Plain) (found : numbering.number? name = some number) :
    0 < name ∧ 2 * name + 1 < UInt32.size := by
  obtain ⟨positive, small⟩ := plain.inRange name (plain.exists_number?_iff.1 ⟨number, found⟩)
  exact ⟨positive, by simp only [UInt32.size]; omega⟩

/-- A literal is translated by its variable, and keeps its sign. -/
theorem toNumbered?_iff (plain : numbering.Plain) :
    numbering.toNumbered? literal = some other ↔
      numbering.number? literal.var = some other.var ∧ other.isPositive = literal.isPositive := by
  unfold toNumbered?
  rw [Option.map_eq_some_iff]
  constructor
  · rintro ⟨number, found, rfl⟩
    obtain ⟨positive, fits⟩ := plain.fits_number found
    exact ⟨by rw [Literal.var_ofVar positive fits, found], Literal.isPositive_ofVar positive fits⟩
  · rintro ⟨found, sign⟩
    refine ⟨other.var, found, ?_⟩
    rw [← sign, Literal.ofVar_var (plain.fits_number found).1]

/-- A numbering and its inverse agree. -/
theorem ofNumbered?_iff (plain : numbering.Plain) :
    numbering.ofNumbered? other = some literal ↔
      numbering.number? literal.var = some other.var ∧ other.isPositive = literal.isPositive := by
  unfold ofNumbered?
  simp only [Option.map_eq_some_iff, ← plain.number?_iff_varOf?]
  constructor
  · rintro ⟨name, found, rfl⟩
    obtain ⟨positive, fits⟩ := plain.fits_name found
    exact ⟨by rw [Literal.var_ofVar positive fits, found],
      (Literal.isPositive_ofVar positive fits).symm⟩
  · rintro ⟨found, sign⟩
    refine ⟨literal.var, found, ?_⟩
    rw [sign, Literal.ofVar_var (plain.fits_name found).1]

/-- A table over the variables has what a table over the numbers says of them. -/
theorem decompress_eq_some (plain : numbering.Plain) {numVars : Nat}
    (enough : ∀ name ∈ numbering.names.toList, name ≤ numVars) (model : Model) :
    ∃ table, numbering.decompress model numVars = some table ∧ table.size = numVars + 1 ∧
      ∀ name, name ≤ numVars → table[name]? =
        some ((numbering.number? name).bind fun number => (model[number]?).join) := by
  obtain ⟨table, decompressed, size, value⟩ := decompress_eq plain.distinct enough model
  refine ⟨table, decompressed, size, fun name small => ?_⟩
  have inside : name < table.size := size.symm ▸ Nat.lt_succ_of_le small
  rw [← value name, Array.getElem?_eq_getElem inside, Option.join_some]

end Plain

/-! ## Numberings that were built -/

/-- A variable that gets a number if some literals are true: it is in a live clause, protected, or
has one of these literals. -/
def Counts (engine : Engine) (assigned : List Literal) (name : Nat) : Prop :=
  0 < name ∧ ((∃ clause ∈ engine.arena.liveClauses, ∃ literal ∈ clause.literals, literal.var = name) ∨
    (engine.trail.flags? name).map VarFlags.frozen = some true ∨
    ∃ literal ∈ assigned, literal.var = name)

instance (engine : Engine) (assigned : List Literal) (name : Nat) :
    Decidable (Counts engine assigned name) := inferInstanceAs (Decidable (_ ∧ _))

/-- Variables and numbers correspond: which variables have a number, and how variables, literals and
models are translated. -/
structure Corresponds (numbering : Numbering) (numbered : Nat → Prop) : Prop where
  names : ∀ name, (∃ number, numbering.number? name = some number) ↔ numbered name
  numbers : ∀ number, (∃ name, numbering.varOf? number = some name) ↔
    0 < number ∧ number ≤ numbering.size
  inverse : ∀ name number,
    numbering.number? name = some number ↔ numbering.varOf? number = some name
  literals : ∀ literal other,
    numbering.toNumbered? literal = some other ↔ numbering.ofNumbered? other = some literal
  signs : ∀ literal other, numbering.toNumbered? literal = some other ↔
    numbering.number? literal.var = some other.var ∧ other.isPositive = literal.isPositive
  models : ∀ (model : Model) (numVars : Nat), (∀ name, numbered name → name ≤ numVars) →
    ∃ table, numbering.decompress model numVars = some table ∧ table.size = numVars + 1 ∧
      ∀ name, name ≤ numVars → table[name]? =
        some ((numbering.number? name).bind fun number => (model[number]?).join)

/-- A plain numbering corresponds to its names. -/
theorem Plain.corresponds (plain : numbering.Plain) :
    numbering.Corresponds fun name => name ∈ numbering.names.toList where
  names _ := plain.exists_number?_iff
  numbers _ := plain.exists_varOf?_iff
  inverse _ _ := plain.number?_iff_varOf?
  literals _ _ := plain.toNumbered?_iff.trans plain.ofNumbered?_iff.symm
  signs _ _ := plain.toNumbered?_iff
  models model _ enough := plain.decompress_eq_some enough model

theorem Corresponds.of_iff {first second : Nat → Prop} (corresponds : numbering.Corresponds first)
    (same : ∀ name, first name ↔ second name) : numbering.Corresponds second := by
  obtain rfl : first = second := funext fun name => propext (same name)
  exact corresponds

/-- In a trail in order the needed variables are those in live clauses, protected or on the trail. -/
theorem keeps_iff_counts (layered : engine.trail.Layered)
    (inRange : ∀ clause ∈ engine.arena.liveClauses, ∀ literal ∈ clause.literals,
      literal.var ≤ engine.numVars) :
    0 < name ∧ name ≤ engine.numVars ∧ Keeps engine name ↔
      Counts engine engine.trail.literals.toList name := by
  have inside : ∀ name, name < engine.trail.vars.size → name ≤ engine.numVars := fun _ =>
    Nat.le_sub_one_of_lt
  constructor
  · rintro ⟨positive, _, inClause | ⟨state, atName, frozen | assigned⟩⟩
    · exact ⟨positive, .inl inClause⟩
    · refine ⟨positive, .inr (.inl ?_)⟩
      rw [Trail.flags?, atName, Option.map_some, Option.map_some, frozen]
    · obtain ⟨sign, value⟩ := Option.isSome_iff_exists.1 assigned
      obtain ⟨literal, onTrail, isVar, _⟩ := (layered.valued name sign).1 (by
        rw [Trail.value?, atName, Option.map_some, value])
      exact ⟨positive, .inr (.inr ⟨literal, onTrail, isVar⟩)⟩
  · rintro ⟨positive, ⟨clause, live, literal, member, rfl⟩ | frozen |
      ⟨literal, onTrail, rfl⟩⟩
    · exact ⟨positive, inRange clause live literal member, .inl ⟨clause, live, literal, member, rfl⟩⟩
    · obtain ⟨flags, found, frozen⟩ := Option.map_eq_some_iff.1 frozen
      obtain ⟨state, atName, rfl⟩ := Option.map_eq_some_iff.1 found
      exact ⟨positive, inside name (Array.getElem?_eq_some_iff.1 atName).1,
        .inr ⟨state, atName, .inl frozen⟩⟩
    · obtain ⟨state, atName, value⟩ := Option.map_eq_some_iff.1 (layered.value_of_mem onTrail)
      exact ⟨positive, inside _ (layered.var_lt onTrail),
        .inr ⟨state, atName, .inr (by rw [value]; rfl)⟩⟩

/-- Earlier variables keep their numbers when others are numbered. -/
theorem number?_pushAll (plain : (numbering.pushAll pushed).Plain)
    (found : numbering.names.toList[number]? = some name) :
    (numbering.pushAll pushed).number? name = some (number + 1) := by
  refine (number?_eq_some plain.distinct).2 ⟨number, ?_, rfl⟩
  rw [names_pushAll, List.getElem?_append_left (List.getElem?_eq_some_iff.1 found).1, found]

/-- In an ascending list a lesser entry stands earlier. -/
theorem lt_iff_of_ascending {names : List Nat} (ascending : names.Pairwise (· < ·))
    {first second i j : Nat} (atFirst : names[i]? = some first) (atSecond : names[j]? = some second) :
    first < second ↔ i < j := by
  have below : ∀ {a b k l : Nat}, names[k]? = some a → names[l]? = some b → k < l → a < b := by
    intro a b k l atA atB before
    obtain ⟨insideA, rfl⟩ := List.getElem?_eq_some_iff.1 atA
    obtain ⟨insideB, rfl⟩ := List.getElem?_eq_some_iff.1 atB
    exact List.pairwise_iff_getElem.1 ascending k l insideA insideB before
  refine ⟨fun less => ?_, below atFirst atSecond⟩
  by_contra notBefore
  obtain later | rfl := Nat.lt_or_eq_of_le (Nat.le_of_not_lt notBefore)
  · exact Nat.lt_asymm less (below atSecond atFirst later)
  · exact Nat.ne_of_lt less (Option.some.inj (atFirst.symm.trans atSecond))

/-- Variables that are numbered later are new ones, so none is numbered twice. -/
theorem Plain.pushAll (plain : numbering.Plain) (nodup : pushed.Nodup)
    (able : ∀ name ∈ pushed, 0 < name ∧ name < 2 ^ 31 ∧ numbering.number? name = none) :
    (numbering.pushAll pushed).Plain := by
  refine ⟨?_, fun name member => ?_⟩
  · rw [names_pushAll]
    refine List.nodup_append.2 ⟨plain.distinct, nodup, ?_⟩
    rintro name old _ new rfl
    obtain ⟨number, found⟩ := plain.exists_number?_iff.2 old
    rw [(able name new).2.2] at found
    cases found
  · rw [names_pushAll, List.mem_append] at member
    obtain old | new := member
    · exact plain.inRange name old
    · exact ⟨(able name new).1, (able name new).2.1⟩

/-- A numbering can be built for every engine, and further variables can be numbered after that:
variables and numbers correspond, and what was built is in order. First are numbered the variables
in live clauses, the protected ones and those with a literal on the trail; as long as no level is
open these are the root literals. -/
theorem build_corresponds (tool : Tool Numbering) (small : engine.numVars < 2 ^ 31)
    (layered : engine.trail.Layered)
    (inRange : ∀ clause ∈ engine.arena.liveClauses, ∀ literal ∈ clause.literals,
      literal.var ≤ engine.numVars) :
    build.Returns (tool, engine) fun _ after => after.2 = engine ∧
      ∀ pushed : List Nat, pushed.Nodup →
        (∀ name ∈ pushed, 0 < name ∧ name < 2 ^ 31 ∧ after.1.own.number? name = none) →
        (after.1.own.pushAll pushed).Corresponds (fun name =>
          Counts engine engine.trail.literals.toList name ∨ name ∈ pushed) ∧
        (engine.trail.level = 0 → (after.1.own.pushAll pushed).Corresponds fun name =>
          Counts engine engine.trail.rootLiterals name ∨ name ∈ pushed) ∧
        ∀ first second i j, Counts engine engine.trail.literals.toList first →
          Counts engine engine.trail.literals.toList second →
          (after.1.own.pushAll pushed).number? first = some i →
          (after.1.own.pushAll pushed).number? second = some j → (first < second ↔ i < j) := by
  obtain ⟨names, found⟩ := exists_needed_of_inRange inRange
  refine (build_returns_needed tool found).imp ?_
  rintro _ ⟨_, after⟩ ⟨same, own⟩
  refine ⟨same, fun pushed nodup able => ?_⟩
  dsimp only at own able ⊢
  rw [own] at able ⊢
  generalize isBuilt : (⟨some names⟩ : Numbering) = numbering at *
  have isNames : numbering.names = names := by rw [← isBuilt]; rfl
  have ascending : numbering.names.toList.Pairwise (· < ·) := isNames ▸ ascending_needed? found
  have built : ∀ name, name ∈ numbering.names.toList ↔
      Counts engine engine.trail.literals.toList name := fun name =>
    isNames ▸ (mem_needed? found).trans (keeps_iff_counts layered inRange)
  have plainBuilt : numbering.Plain := by
    refine ⟨ascending.imp Nat.ne_of_lt, fun name member => ?_⟩
    obtain ⟨positive, inside, _⟩ := (mem_needed? found).1 (isNames ▸ member)
    exact ⟨positive, Nat.lt_of_le_of_lt inside small⟩
  have plain := plainBuilt.pushAll nodup able
  have corresponds : (numbering.pushAll pushed).Corresponds fun name =>
      Counts engine engine.trail.literals.toList name ∨ name ∈ pushed :=
    plain.corresponds.of_iff fun name => by rw [names_pushAll, List.mem_append, built]
  refine ⟨corresponds, fun closed => ?_, fun first second i j isFirst isSecond atI atJ => ?_⟩
  · have allRoot : engine.trail.rootLiterals = engine.trail.literals.toList := by
      have none_ : engine.trail.levels = #[] := Array.size_eq_zero_iff.1 closed
      rw [Trail.rootLiterals, Trail.numRoot, none_]
      exact List.take_of_length_le (Nat.le_of_eq Array.length_toList)
    rwa [allRoot]
  · obtain ⟨k, atFirst⟩ := List.mem_iff_getElem?.1 ((built first).2 isFirst)
    obtain ⟨l, atSecond⟩ := List.mem_iff_getElem?.1 ((built second).2 isSecond)
    rw [number?_pushAll plain atFirst] at atI
    rw [number?_pushAll plain atSecond] at atJ
    obtain rfl := Option.some.inj atI
    obtain rfl := Option.some.inj atJ
    rw [lt_iff_of_ascending ascending atFirst atSecond, Nat.add_lt_add_iff_right]

/-- Variable 1 is decided and gets the number 1, and variable 2 is numbered later. -/
theorem build_corresponds_pushed : ∃ (opened : Trail) (after : Tool Numbering × Engine),
    (Trail.ofVars 2).openLevel (.ofVar 1 true) = some opened ∧
      build (⟨{}, 0, {}⟩, { Engine.ofVars {} 2 with trail := opened }) = .done () after ∧
      after.1.own.number? 2 = none ∧ (after.1.own.pushAll [2]).number? 2 = some 2 ∧
      (after.1.own.pushAll [2]).Corresponds (fun name =>
        Counts { Engine.ofVars {} 2 with trail := opened } opened.literals.toList name ∨
          name ∈ [2]) := by
  obtain ⟨opened, isOpened⟩ : ∃ opened, (Trail.ofVars 2).openLevel (.ofVar 1 true) = some opened :=
    ⟨_, rfl⟩
  have layered : opened.Layered :=
    (Trail.layered_ofVars 2).mark.imply (by decide) rfl isOpened
  obtain ⟨small, inRange, _, after, done, absent, number⟩ :
      Engine.numVars { Engine.ofVars {} 2 with trail := opened } < 2 ^ 31 ∧
      (∀ clause ∈ (Engine.ofVars {} 2).arena.liveClauses, ∀ literal ∈ clause.literals,
        literal.var ≤ Engine.numVars { Engine.ofVars {} 2 with trail := opened }) ∧
      (build : Work Numbering Unit).Returns (⟨{}, 0, {}⟩, { Engine.ofVars {} 2 with trail := opened })
        fun _ after => after.1.own.number? 2 = none ∧
          (after.1.own.pushAll [2]).number? 2 = some 2 := by
    cases isOpened
    decide +kernel
  obtain ⟨_, _, again, _, pushes⟩ := build_corresponds ⟨{}, 0, {}⟩ small layered inRange
  cases done.symm.trans again
  obtain ⟨corresponds, _⟩ := pushes [2] (List.nodup_singleton 2) (by simpa using absent)
  exact ⟨opened, after, isOpened, done, absent, number, corresponds⟩

/-- A variable that was only decided is numbered: it is in no clause, not protected, and no root
literal. -/
theorem number?_of_decision : ∃ (opened : Trail) (after : Tool Numbering × Engine),
    (Trail.ofVars 2).openLevel (.ofVar 1 true) = some opened ∧ opened.Layered ∧
      build (⟨{}, 0, {}⟩, { Engine.ofVars {} 2 with trail := opened }) = .done () after ∧
      after.1.own.number? 1 = some 1 ∧
      ¬ Counts { Engine.ofVars {} 2 with trail := opened } opened.rootLiterals 1 := by
  obtain ⟨opened, isOpened⟩ : ∃ opened, (Trail.ofVars 2).openLevel (.ofVar 1 true) = some opened :=
    ⟨_, rfl⟩
  have layered : opened.Layered :=
    (Trail.layered_ofVars 2).mark.imply (by decide) rfl isOpened
  obtain ⟨⟨⟩, after, done, number, uncounted⟩ :
      (build : Work Numbering Unit).Returns (⟨{}, 0, {}⟩, { Engine.ofVars {} 2 with trail := opened })
        fun _ after => after.1.own.number? 1 = some 1 ∧
          ¬ Counts { Engine.ofVars {} 2 with trail := opened } opened.rootLiterals 1 := by
    cases isOpened
    decide +kernel
  exact ⟨opened, after, isOpened, layered, done, number, uncounted⟩

end CnfSimplifier.Numbering
