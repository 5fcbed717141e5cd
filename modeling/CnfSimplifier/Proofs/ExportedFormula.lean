import CnfSimplifier.Proofs.Extension
import CnfSimplifier.Proofs.Numbering

/-!
# The exported formula

If every variable of the formula has a number, the exported formula is the formula
with every variable renamed to its number: a unit for every root literal, then the
live clauses. Literals that satisfy it give the variables values that satisfy the
formula, and a model of the formula is a model of the exported one.
-/
namespace CnfSimplifier

variable {values : Assignment}

/-! ## Clauses of signed integers -/

/-- An assignment satisfies a clause of signed integers. -/
def Satisfies (values : Assignment) (clause : List Int) : Prop :=
  ∃ literal ∈ clause, values literal.natAbs = decide (0 < literal)

/-- Literals satisfy a clause: one of them, the last one of its variable, is in it. -/
def SatisfiedBy (literals : List Int) (clause : List Int) : Prop :=
  ∃ literal ∈ clause, valueIn literals literal.natAbs = some (decide (0 < literal))

instance (literals clause : List Int) : Decidable (SatisfiedBy literals clause) :=
  inferInstanceAs (Decidable (∃ literal ∈ clause, _ = _))

namespace Literal

theorem natAbs_toInt (literal : Literal) : literal.toInt.natAbs = literal.var := by
  unfold toInt
  split
  · rfl
  · exact (Int.natAbs_neg _).trans rfl

theorem toInt_ne_zero {literal : Literal} (present : 0 < literal.var) : literal.toInt ≠ 0 := by
  intro zero
  have := natAbs_toInt literal
  rw [zero] at this
  exact absurd this (Nat.ne_of_lt present)

theorem toInt_pos {literal : Literal} (present : 0 < literal.var) :
    decide (0 < literal.toInt) = literal.isPositive := by
  unfold toInt
  cases literal.isPositive
  · rw [if_neg Bool.false_ne_true]
    exact decide_eq_false (by omega)
  · rw [if_pos rfl]
    exact decide_eq_true (by omega)

end Literal

/-- A clause of literals holds as the clause of their integers does. -/
theorem satisfies_map_toInt {clause : List Literal}
    (present : ∀ literal ∈ clause, 0 < literal.var) :
    Satisfies values (clause.map Literal.toInt) ↔ ClauseHolds values clause := by
  constructor
  · rintro ⟨_, member, holds⟩
    obtain ⟨literal, inside, rfl⟩ := List.mem_map.1 member
    rw [Literal.natAbs_toInt, Literal.toInt_pos (present literal inside)] at holds
    exact ⟨literal, inside, holds⟩
  · rintro ⟨literal, member, holds⟩
    refine ⟨literal.toInt, List.mem_map_of_mem member, ?_⟩
    rw [Literal.natAbs_toInt, Literal.toInt_pos (present literal member)]
    exact holds

/-- Integers that are literals mean what their literals mean. -/
theorem satisfies_iff_clauseHolds {clause : List Int}
    (proper : ∀ literal ∈ clause, literal ≠ 0 ∧ literal.natAbs < 2 ^ 31) :
    Satisfies values clause ↔ ClauseHolds values (clause.map Literal.ofInt) := by
  have back : (clause.map Literal.ofInt).map Literal.toInt = clause := by
    rw [List.map_map]
    refine (List.map_congr_left fun literal member => ?_).trans (List.map_id clause)
    obtain ⟨nonzero, small⟩ := proper literal member
    exact Literal.toInt_ofInt nonzero (by simp only [UInt32.size]; omega)
  have present : ∀ literal ∈ clause.map Literal.ofInt, 0 < literal.var := by
    intro literal member
    obtain ⟨value, inside, rfl⟩ := List.mem_map.1 member
    obtain ⟨nonzero, small⟩ := proper value inside
    rw [Literal.ofInt_eq, Literal.var_ofVar (by omega) (by simp only [UInt32.size]; omega)]
    omega
  conv_lhs => rw [← back]
  exact satisfies_map_toInt present

/-- A listing of values satisfies a clause that they satisfy. -/
theorem exists_mem_listing {numVars : Nat} {clause : List Int} (satisfies : Satisfies values clause)
    (inRange : ∀ literal ∈ clause, literal ≠ 0 ∧ literal.natAbs ≤ numVars) :
    ∃ literal ∈ clause, literal ∈ listing numVars values := by
  obtain ⟨literal, member, holds⟩ := satisfies
  obtain ⟨nonzero, small⟩ := inRange literal member
  exact ⟨literal, member, mem_listing nonzero small holds⟩

/-! ## Renaming -/

namespace Simplifier

variable {simplifier : Simplifier} {literals : List Int}

/-- Every variable of the formula has a number. -/
def Numbers (simplifier : Simplifier) : Prop :=
  ∀ clause ∈ simplifier.engine.picture.formula, ∀ literal ∈ clause,
    ∃ number, simplifier.number? literal.var = some number

/-- The exported form of a literal: its number, with its sign. -/
theorem exportLiteral?_eq {literal : Literal} (present : 0 < literal.var) :
    simplifier.exportLiteral? literal = (simplifier.number? literal.var).map fun number =>
      Literal.ofVar number literal.isPositive := by
  unfold exportLiteral? number?
  split
  · rfl
  · rw [Option.map_some, Literal.ofVar_var present]

/-- Distinct variables have numbers, so there are no more numbers than variables. -/
theorem Exportable.numExported_le (exportable : simplifier.Exportable) :
    simplifier.numExported ≤ simplifier.numVars := by
  unfold numExported
  split
  next active =>
    obtain ⟨distinct, inRange⟩ := exportable.numbered active
    have part : simplifier.numbering.names.toList ⊆ List.range' 1 simplifier.numVars := by
      intro other member
      have := inRange other member
      exact List.mem_range'_1.2 (by omega)
    have few := (distinct.subperm part).length_le
    rwa [List.length_range'] at few
  next => exact Nat.le_refl _

/-- The numbers that variables have: none is zero, and all have literals. -/
theorem number?_inRange (exportable : simplifier.Exportable)
    {name number : Nat} (positive : 0 < name) (small : name ≤ simplifier.numVars)
    (found : simplifier.number? name = some number) :
    0 < number ∧ number ≤ simplifier.numExported ∧ 2 * number + 1 < UInt32.size := by
  have bound : simplifier.numVars < 2 ^ 31 := exportable.trail.numVars_lt
  have few := exportable.numExported_le
  have inside : 0 < number ∧ number ≤ simplifier.numExported := by
    unfold number? at found
    unfold numExported
    split at found
    next active =>
      rw [if_pos active]
      obtain ⟨i, atPlace, rfl⟩ :=
        (Numbering.number?_eq_some (exportable.numbered active).1).1 found
      exact ⟨by omega, (List.getElem?_eq_some_iff.1 atPlace).1⟩
    next inactive =>
      rw [if_neg inactive]
      cases found
      exact ⟨positive, small⟩
  refine ⟨inside.1, inside.2, ?_⟩
  simp only [UInt32.size]
  omega

/-- No two variables have the same number. -/
theorem number?_inj (exportable : simplifier.Exportable)
    {first second number : Nat} (isFirst : simplifier.number? first = some number)
    (isSecond : simplifier.number? second = some number) : first = second := by
  unfold number? at isFirst isSecond
  split at isFirst
  next active =>
    rw [if_pos active] at isSecond
    obtain ⟨distinct, _⟩ := exportable.numbered active
    obtain ⟨i, atFirst, rfl⟩ := (Numbering.number?_eq_some distinct).1 isFirst
    obtain ⟨j, atSecond, same⟩ := (Numbering.number?_eq_some distinct).1 isSecond
    obtain rfl : i = j := Nat.succ.inj same
    exact Option.some.inj (atFirst.symm.trans atSecond)
  next inactive =>
    rw [if_neg inactive] at isSecond
    exact Option.some.inj (isFirst.trans isSecond.symm)

/-- The number of a variable; variables without one come behind all numbers. -/
def rename (simplifier : Simplifier) (name : Nat) : Nat :=
  (simplifier.number? name).getD (simplifier.numbering.size + 1 + name)

theorem rename_eq {name number : Nat} (found : simplifier.number? name = some number) :
    simplifier.rename name = number := by
  rw [rename, found, Option.getD_some]

/-- Renaming keeps variables apart. -/
theorem rename_injective (exportable : simplifier.Exportable) :
    Function.Injective simplifier.rename := by
  -- Only a numbering in effect leaves variables without a number.
  have below : ∀ first second number, simplifier.number? first = some number →
      simplifier.number? second = none → number < simplifier.numbering.size + 1 + second := by
    intro first second number isFirst isSecond
    unfold number? at isFirst isSecond
    split at isFirst
    next active =>
      obtain ⟨i, atPlace, rfl⟩ :=
        (Numbering.number?_eq_some (exportable.numbered active).1).1 isFirst
      have inside : i < simplifier.numbering.size := (List.getElem?_eq_some_iff.1 atPlace).1
      omega
    next inactive =>
      rw [if_neg inactive] at isSecond
      cases isSecond
  intro first second same
  unfold rename at same
  cases isFirst : simplifier.number? first with
  | none =>
    cases isSecond : simplifier.number? second with
    | none =>
      rw [isFirst, isSecond, Option.getD_none, Option.getD_none] at same
      omega
    | some number =>
      rw [isFirst, isSecond, Option.getD_none, Option.getD_some] at same
      exact absurd (below second first number isSecond isFirst) (by omega)
  | some number =>
    cases isSecond : simplifier.number? second with
    | none =>
      rw [isFirst, isSecond, Option.getD_none, Option.getD_some] at same
      exact absurd (below first second number isFirst isSecond) (by omega)
    | some other =>
      rw [isFirst, isSecond, Option.getD_some, Option.getD_some] at same
      exact number?_inj exportable isFirst (same ▸ isSecond)

end Simplifier

/-- A literal under a renaming of the variables, as a signed integer. -/
def Literal.renamed (rename : Nat → Nat) (literal : Literal) : Int :=
  if literal.isPositive then (rename literal.var : Int) else -(rename literal.var : Int)

theorem Literal.natAbs_renamed (rename : Nat → Nat) (literal : Literal) :
    (literal.renamed rename).natAbs = rename literal.var := by
  unfold renamed
  split
  · rfl
  · exact (Int.natAbs_neg _).trans rfl

/-- Renaming keeps the sign. -/
theorem Literal.renamed_pos {rename : Nat → Nat} {literal : Literal}
    (present : 0 < rename literal.var) :
    decide (0 < literal.renamed rename) = literal.isPositive := by
  unfold renamed
  cases literal.isPositive
  · rw [if_neg Bool.false_ne_true]
    exact decide_eq_false (by omega)
  · rw [if_pos rfl]
    exact decide_eq_true (by omega)

theorem Literal.toInt_ofVar {name : Nat} {positive : Bool} (present : 0 < name)
    (small : 2 * name + 1 < UInt32.size) :
    (Literal.ofVar name positive).toInt = if positive then (name : Int) else -(name : Int) := by
  rw [Literal.toInt, Literal.isPositive_ofVar present small, Literal.var_ofVar present small]

namespace Simplifier

variable {simplifier : Simplifier} {literals : List Int} {literal : Literal} {clause : List Literal}

/-- The signed integer of an exported literal is the renamed literal. -/
theorem toInt_exportLiteral? (exportable : simplifier.Exportable) (positive : 0 < literal.var)
    (small : literal.var ≤ simplifier.numVars) {number : Nat}
    (found : simplifier.number? literal.var = some number) :
    (simplifier.exportLiteral? literal).map Literal.toInt =
      some (literal.renamed simplifier.rename) := by
  obtain ⟨positiveNumber, _, smallNumber⟩ := number?_inRange exportable positive small found
  rw [exportLiteral?_eq positive, found, Option.map_some, Option.map_some,
    Literal.toInt_ofVar positiveNumber smallNumber, Literal.renamed, rename, found]
  rfl

/-- A clause of numbered variables is exported as a whole. -/
theorem map_filterMap_exportLiteral? (exportable : simplifier.Exportable)
    (numbered : ∀ literal ∈ clause, 0 < literal.var ∧ literal.var ≤ simplifier.numVars ∧
      ∃ number, simplifier.number? literal.var = some number) :
    (clause.filterMap simplifier.exportLiteral?).map Literal.toInt =
      clause.map (Literal.renamed simplifier.rename) := by
  induction clause with
  | nil => rfl
  | cons literal rest ih =>
    obtain ⟨⟨positive, small, number, found⟩, later⟩ := List.forall_mem_cons.1 numbered
    have exported := toInt_exportLiteral? exportable positive small found
    obtain ⟨image, isImage, value⟩ := Option.map_eq_some_iff.1 exported
    rw [List.filterMap_cons_some isImage, List.map_cons, List.map_cons, value, ih later]

/-- Live clauses are in the formula. -/
theorem mem_formula_of_liveClauses {clause : Clause}
    (live : clause ∈ simplifier.engine.arena.liveClauses) :
    clause.literals ∈ simplifier.engine.picture.formula := by
  refine .inl ?_
  change clause.literals ∈ simplifier.engine.arena.contents
  rw [Arena.contents_eq_liveClauses]
  exact List.mem_map_of_mem live

variable [Realm]

/-- Every literal of the formula that is exported has an exported variable. -/
theorem exported_present (exportable : simplifier.Exportable) (sound : simplifier.engine.Sound)
    (member : clause ∈ simplifier.engine.picture.formula) {literal image : Literal}
    (inside : literal ∈ clause) (exported : simplifier.exportLiteral? literal = some image) :
    0 < image.var := by
  obtain ⟨positive, small, _⟩ := sound.wellFormed.known_of_mem member inside
  rw [exportLiteral?_eq positive] at exported
  obtain ⟨number, found, rfl⟩ := Option.map_eq_some_iff.1 exported
  obtain ⟨positiveNumber, _, smallNumber⟩ := number?_inRange exportable positive small found
  rwa [Literal.var_ofVar positiveNumber smallNumber]

/-- What is exported has no zeros, so it is read as it was written. -/
theorem exportedClauses_eq (exportable : simplifier.Exportable)
    (sound : simplifier.engine.Sound) :
    simplifier.exportedClauses = simplifier.exportedLists := by
  refine ClauseStream.read_write fun clause member zero => ?_
  have isRoot : simplifier.engine.trail.rootLiterals = simplifier.engine.picture.root :=
    exportable.rootLiterals
  unfold exportedLists at member
  split at member
  · rw [List.mem_singleton.1 member] at zero
    cases zero
  dsimp only at member
  rw [isRoot] at member
  rcases List.mem_append.1 member with unit | stored
  · obtain ⟨image, isImage, rfl⟩ := List.mem_map.1 unit
    obtain ⟨literal, atRoot, exported⟩ := List.mem_filterMap.1 isImage
    have present := exported_present exportable sound (Picture.mem_formula_of_root atRoot)
      List.mem_cons_self exported
    exact Literal.toInt_ne_zero present (List.mem_singleton.1 zero).symm
  · obtain ⟨stored, live, rfl⟩ := List.mem_map.1 stored
    obtain ⟨image, isImage, isZero⟩ := List.mem_map.1 zero
    obtain ⟨literal, inside, exported⟩ := List.mem_filterMap.1 isImage
    have present := exported_present exportable sound (mem_formula_of_liveClauses live) inside
      exported
    exact Literal.toInt_ne_zero present isZero

/-- The exported formula is the formula with every variable renamed. -/
theorem exportedLists_eq (exportable : simplifier.Exportable)
    (sound : simplifier.engine.Sound) (isOpen : simplifier.engine.unsat = false)
    (numbers : simplifier.Numbers) :
    simplifier.exportedLists =
      (simplifier.engine.trail.rootLiterals.map fun literal =>
        [literal.renamed simplifier.rename]) ++
      simplifier.engine.arena.liveClauses.map fun clause =>
        clause.literals.map (Literal.renamed simplifier.rename) := by
  have inFormula : ∀ clause ∈ simplifier.engine.picture.formula, ∀ literal ∈ clause,
      0 < literal.var ∧ literal.var ≤ simplifier.numVars ∧
        ∃ number, simplifier.number? literal.var = some number := by
    intro clause member literal inside
    obtain ⟨positive, small, _⟩ := sound.wellFormed.known_of_mem member inside
    exact ⟨positive, small, numbers clause member literal inside⟩
  have isRoot : simplifier.engine.trail.rootLiterals = simplifier.engine.picture.root :=
    exportable.rootLiterals
  unfold exportedLists
  rw [isOpen, if_neg Bool.false_ne_true, isRoot]
  dsimp only
  congr 1
  · have units := map_filterMap_exportLiteral? exportable fun literal atRoot =>
      inFormula [literal] (Picture.mem_formula_of_root atRoot) literal List.mem_cons_self
    have wrapped := congrArg (List.map fun value => [value]) units
    rw [List.map_map, List.map_map] at wrapped
    exact wrapped
  · refine List.map_congr_left fun clause live => ?_
    exact map_filterMap_exportLiteral? exportable
      (inFormula clause.literals (mem_formula_of_liveClauses live))

/-- The clauses of the formula are exported, and no others. -/
theorem mem_exportedClauses_iff (exportable : simplifier.Exportable)
    (sound : simplifier.engine.Sound) (isOpen : simplifier.engine.unsat = false)
    (numbers : simplifier.Numbers) {exported : List Int} :
    exported ∈ simplifier.exportedClauses ↔ ∃ clause ∈ simplifier.engine.picture.formula,
      clause.map (Literal.renamed simplifier.rename) = exported := by
  rw [exportedClauses_eq exportable sound, exportedLists_eq exportable sound isOpen numbers,
    exportable.rootLiterals, List.mem_append]
  constructor
  · rintro (unit | stored)
    · obtain ⟨literal, atRoot, rfl⟩ := List.mem_map.1 unit
      exact ⟨[literal], Picture.mem_formula_of_root atRoot, rfl⟩
    · obtain ⟨kept, live, rfl⟩ := List.mem_map.1 stored
      exact ⟨kept.literals, mem_formula_of_liveClauses live, rfl⟩
  · rintro ⟨clause, stored | ⟨literal, atRoot, rfl⟩, rfl⟩
    · have live : clause ∈ (simplifier.engine.arena.liveClauses.map Clause.literals :
          Multiset (List Literal)) := by
        rw [← Arena.contents_eq_liveClauses]
        exact stored
      obtain ⟨kept, isLive, rfl⟩ := List.mem_map.1 (Multiset.mem_coe.1 live)
      exact .inr (List.mem_map_of_mem isLive)
    · exact .inl (List.mem_map_of_mem atRoot)

/-! ## Models -/

/-- Literals that satisfy the exported formula agree with every root literal that
is exported. -/
theorem valueIn_of_root (exportable : simplifier.Exportable) (sound : simplifier.engine.Sound)
    (isOpen : simplifier.engine.unsat = false)
    (satisfied : ∀ clause ∈ simplifier.exportedClauses, SatisfiedBy literals clause)
    (atRoot : literal ∈ simplifier.engine.trail.facts) {number : Nat}
    (found : simplifier.number? literal.var = some number) :
    valueIn literals number = some literal.isPositive := by
  obtain ⟨positive, small⟩ := exportable.root literal atRoot
  obtain ⟨positiveNumber, _, smallNumber⟩ := number?_inRange exportable positive small found
  have exported : simplifier.exportLiteral? literal =
      some (Literal.ofVar number literal.isPositive) := by
    rw [exportLiteral?_eq positive, found, Option.map_some]
  have unit : [(Literal.ofVar number literal.isPositive).toInt] ∈ simplifier.exportedLists := by
    unfold exportedLists
    rw [isOpen, if_neg Bool.false_ne_true, exportable.rootLiterals]
    refine List.mem_append_left _ (List.mem_map.2 ⟨_, ?_, rfl⟩)
    exact List.mem_filterMap.2 ⟨literal, atRoot, exported⟩
  rw [exportedClauses_eq exportable sound] at satisfied
  obtain ⟨value, single, holds⟩ := satisfied _ unit
  have present : 0 < (Literal.ofVar number literal.isPositive).var := by
    rwa [Literal.var_ofVar positiveNumber smallNumber]
  rw [List.mem_singleton.1 single, Literal.natAbs_toInt, Literal.toInt_pos present,
    Literal.var_ofVar positiveNumber smallNumber,
    Literal.isPositive_ofVar positiveNumber smallNumber] at holds
  exact holds

/-- A variable with a number gets the value that its number has, if it has one. -/
theorem Reads.value_of_number? (exportable : simplifier.Exportable)
    (sound : simplifier.engine.Sound) (isOpen : simplifier.engine.unsat = false)
    (satisfied : ∀ clause ∈ simplifier.exportedClauses, SatisfiedBy literals clause)
    (reads : simplifier.Reads literals values) {name number : Nat} (positive : 0 < name)
    (small : name ≤ simplifier.numVars) (found : simplifier.number? name = some number)
    {value : Bool} (given : valueIn literals number = some value) : values name = value := by
  by_cases assigned : ∃ literal ∈ simplifier.engine.trail.facts, literal.var = name
  · obtain ⟨literal, atRoot, rfl⟩ := assigned
    have atNumber := valueIn_of_root exportable sound isOpen satisfied atRoot found
    rw [given, Option.some.injEq] at atNumber
    exact (reads.root literal atRoot).trans atNumber.symm
  · rw [reads.other name positive small fun literal atRoot same => assigned ⟨literal, atRoot, same⟩,
      found, Option.bind_some, given, Option.getD_some]

/-- Literals that satisfy the exported formula give values that satisfy the formula. -/
theorem Reads.holds (exportable : simplifier.Exportable) (sound : simplifier.engine.Sound)
    (isOpen : simplifier.engine.unsat = false) (numbers : simplifier.Numbers)
    (satisfied : ∀ clause ∈ simplifier.exportedClauses, SatisfiedBy literals clause)
    (reads : simplifier.Reads literals values) : simplifier.engine.picture.Holds values := by
  intro clause member
  have exported := (mem_exportedClauses_iff exportable sound isOpen numbers).2 ⟨clause, member, rfl⟩
  obtain ⟨_, isRenamed, given⟩ := satisfied _ exported
  obtain ⟨literal, inside, rfl⟩ := List.mem_map.1 isRenamed
  obtain ⟨positive, small, _⟩ := sound.wellFormed.known_of_mem member inside
  obtain ⟨number, found⟩ := numbers clause member literal inside
  have isNumber := rename_eq found
  have positiveNumber : 0 < simplifier.rename literal.var :=
    isNumber ▸ (number?_inRange exportable positive small found).1
  rw [Literal.natAbs_renamed, Literal.renamed_pos positiveNumber, isNumber] at given
  exact ⟨literal, inside,
    reads.value_of_number? exportable sound isOpen satisfied positive small found given⟩

/-- A literal holds under its new name as it does under its old one. -/
theorem holds_renamed_iff (exportable : simplifier.Exportable) (sound : simplifier.engine.Sound)
    (numbers : simplifier.Numbers) (member : clause ∈ simplifier.engine.picture.formula)
    (inside : literal ∈ clause) (renamed : Assignment) :
    renamed (literal.renamed simplifier.rename).natAbs =
        decide (0 < literal.renamed simplifier.rename) ↔
      literal.Holds fun name => renamed (simplifier.rename name) := by
  obtain ⟨positive, small, _⟩ := sound.wellFormed.known_of_mem member inside
  obtain ⟨number, found⟩ := numbers clause member literal inside
  have positiveNumber : 0 < simplifier.rename literal.var :=
    rename_eq found ▸ (number?_inRange exportable positive small found).1
  rw [Literal.natAbs_renamed, Literal.renamed_pos positiveNumber]
  rfl

/-- A model of the exported formula, read under the new names, is a model of the
formula. -/
theorem holds_of_satisfies (exportable : simplifier.Exportable)
    (sound : simplifier.engine.Sound) (isOpen : simplifier.engine.unsat = false)
    (numbers : simplifier.Numbers) {renamed : Assignment}
    (satisfied : ∀ clause ∈ simplifier.exportedClauses, Satisfies renamed clause) :
    simplifier.engine.picture.Holds fun name => renamed (simplifier.rename name) := by
  intro clause member
  obtain ⟨_, isRenamed, holds⟩ := satisfied _
    ((mem_exportedClauses_iff exportable sound isOpen numbers).2 ⟨clause, member, rfl⟩)
  obtain ⟨literal, inside, rfl⟩ := List.mem_map.1 isRenamed
  exact ⟨literal, inside, (holds_renamed_iff exportable sound numbers member inside renamed).1 holds⟩

/-- A model of the formula, with its variables renamed, is a model of the exported
one. -/
theorem exists_exported_model (exportable : simplifier.Exportable) (sound : simplifier.engine.Sound)
    (isOpen : simplifier.engine.unsat = false) (numbers : simplifier.Numbers)
    (holds : simplifier.engine.picture.Holds values) :
    ∃ renamed : Assignment, (∀ clause ∈ simplifier.exportedClauses, Satisfies renamed clause) ∧
      ∀ name, renamed (simplifier.rename name) = values name := by
  have back := Function.leftInverse_invFun (rename_injective exportable)
  have carried : ∀ name, values (Function.invFun simplifier.rename (simplifier.rename name)) =
      values name := fun name => congrArg values (back name)
  refine ⟨fun number => values (Function.invFun simplifier.rename number), fun clause exported => ?_,
    carried⟩
  obtain ⟨original, member, rfl⟩ :=
    (mem_exportedClauses_iff exportable sound isOpen numbers).1 exported
  obtain ⟨literal, inside, isTrue⟩ := holds original member
  refine ⟨_, List.mem_map_of_mem inside,
    (holds_renamed_iff exportable sound numbers member inside fun number =>
      values (Function.invFun simplifier.rename number)).2 ?_⟩
  exact (carried literal.var).trans isTrue

end Simplifier

end CnfSimplifier
