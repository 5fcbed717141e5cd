import CnfSimplifier.Simplifier
import CnfSimplifier.Proofs.EngineState

/-!
# Extending models

A list of literals gives some of the exported variables values. Extending it gives
the variables of the formula the values of their numbers, sets the root literals,
makes what is open true, and unwinds the records. If the records and the numbering
keep to the variables of the formula, this never fails, and the result has one
literal for every variable in order.
-/
namespace CnfSimplifier

/-! ## Records from the stack -/

/-- A record as the stack gives it back: the chosen literal once, in front. -/
def Record.normal (record : Record) : Record :=
  ⟨record.chosen, record.rest.filter fun literal => literal != record.chosen⟩

theorem Record.mem_normal {record : Record} {literal : Literal} :
    literal ∈ record.normal.literals ↔ literal ∈ record.literals := by
  by_cases isChosen : literal = record.chosen
  · simp [normal, literals, isChosen]
  · simp [normal, literals, isChosen]

/-- What a record repairs depends on its members. -/
theorem Record.repair_normal (record : Record) : record.normal.repair = record.repair := by
  funext values
  have same : ClauseHolds values record.normal.literals ↔ ClauseHolds values record.literals :=
    clauseHolds_iff_of_mem fun _ => mem_normal
  unfold repair
  by_cases holds : ClauseHolds values record.literals
  · rw [if_pos holds, if_pos (same.2 holds)]
  · rw [if_neg holds, if_neg fun normal => holds (same.1 normal)]
    rfl

namespace Reconstruction

/-- Literals in front of the first separator belong to the first stretch. -/
theorem stretches_append {front rest first : List Literal} {others : List (List Literal)}
    (plain : Literal.separator ∉ front) (behind : stretches rest = first :: others) :
    stretches (front ++ rest) = (front ++ first) :: others := by
  induction front with
  | nil => exact behind
  | cons literal front ih =>
    simp only [List.mem_cons, not_or] at plain
    rw [List.cons_append, stretches, if_neg (Ne.symm plain.1), ih plain.2]
    rfl

/-- The stretches of records that are led by separators. -/
theorem stretches_flatMap {records : List Record}
    (plain : ∀ record ∈ records, Literal.separator ∉ record.literals) :
    stretches (records.flatMap fun record => Literal.separator :: record.literals) =
      [] :: records.map Record.literals := by
  induction records with
  | nil => rfl
  | cons record rest ih =>
    have behind := ih fun other member => plain other (List.mem_cons_of_mem _ member)
    have front := stretches_append (plain record List.mem_cons_self) behind
    rw [List.append_nil] at front
    rw [List.flatMap_cons, List.cons_append, stretches, if_pos rfl, front, List.map_cons]

/-- Records are pushed as their cells, in order. -/
theorem cells_pushAll (stack : Reconstruction) (records : List Record) :
    (stack.pushAll records).cells.toList = stack.cells.toList ++
      (records.map Record.normal).flatMap fun record =>
        Literal.separator :: record.literals := by
  induction records generalizing stack with
  | nil => simp [pushAll]
  | cons record rest ih =>
    change ((stack.push record.chosen record.rest).pushAll rest).cells.toList = _
    rw [ih]
    simp [push, Record.normal, Record.literals]

/-- The stack gives its records back, the last one first. -/
theorem records_pushAll {records : List Record}
    (plain : ∀ record ∈ records, Literal.separator ∉ record.literals) :
    (({} : Reconstruction).pushAll records).records = (records.map Record.normal).reverse := by
  have plainNormal : ∀ record ∈ records.map Record.normal,
      Literal.separator ∉ record.literals := by
    intro record member inside
    obtain ⟨original, isRecord, rfl⟩ := List.mem_map.1 member
    exact plain original isRecord (Record.mem_normal.1 inside)
  have back : ∀ records : List Record,
      (records.map Record.literals).filterMap toRecord? = records := by
    intro records
    rw [List.filterMap_map]
    exact List.filterMap_some
  unfold Reconstruction.records
  rw [cells_pushAll]
  change (stretches (List.flatMap _ _)).reverse.filterMap toRecord? = _
  rw [stretches_flatMap plainNormal, List.reverse_cons, List.filterMap_append, ← List.map_reverse,
    back]
  exact List.append_nil _

end Reconstruction

/-! ## Replaying records on tables -/

/-- A table gives every variable of a formula the value that an assignment does. -/
structure Shows (numVars : Nat) (values : Assignment) (model : Model) : Prop where
  size : model.size = numVars + 1
  value : ∀ name, 0 < name → name ≤ numVars → model[name]? = some (some (values name))

section Replay

variable {numVars : Nat} {values : Assignment} {model : Model}

/-- A model says of a record what its values say. -/
theorem Record.satisfiedBy?_eq (shows : Shows numVars values model) {literals : List Literal}
    (inRange : ∀ literal ∈ literals, 0 < literal.var ∧ literal.var ≤ numVars) :
    satisfiedBy? model literals = some (decide (ClauseHolds values literals)) := by
  induction literals with
  | nil => simp [satisfiedBy?, ClauseHolds]
  | cons literal rest ih =>
    obtain ⟨positive, small⟩ := inRange literal List.mem_cons_self
    have later := ih fun other member => inRange other (List.mem_cons_of_mem _ member)
    have looked := shows.value literal.var positive small
    have isTrue : literal.isTrueUnder (some (values literal.var)) = true ↔ literal.Holds values := by
      simp [Literal.isTrueUnder, Literal.valueUnder, Literal.Holds]
    unfold satisfiedBy?
    rw [looked, later]
    by_cases holds : literal.Holds values
    · have whole : ClauseHolds values (literal :: rest) := ⟨literal, List.mem_cons_self, holds⟩
      simp [isTrue.2 holds, whole]
    · have whole : ClauseHolds values (literal :: rest) ↔ ClauseHolds values rest := by
        simp [ClauseHolds, holds]
      simp [mt isTrue.1 holds, whole]

/-- Replaying a record on a table repairs the assignment. -/
theorem Record.replay_shows (shows : Shows numVars values model) {record : Record}
    (inRange : ∀ literal ∈ record.literals, 0 < literal.var ∧ literal.var ≤ numVars) :
    ∃ after, record.replay model = some after ∧ Shows numVars (record.repair values) after := by
  unfold replay
  rw [satisfiedBy?_eq shows inRange]
  by_cases holds : ClauseHolds values record.literals
  · refine ⟨model, by simp [holds], ?_⟩
    rwa [repair, if_pos holds]
  · obtain ⟨positive, small⟩ := inRange record.chosen List.mem_cons_self
    have inside : record.chosen.var < model.size := by
      rw [shows.size]
      omega
    refine ⟨model.setIfInBounds record.chosen.var (some record.chosen.isPositive),
      by simp [holds, inside], by rw [Array.size_setIfInBounds, shows.size], ?_⟩
    intro name positiveName smallName
    rw [repair, if_neg holds, Array.getElem?_setIfInBounds]
    by_cases same : record.chosen.var = name
    · subst same
      simp [inside]
    · rw [if_neg same, Function.update_of_ne (Ne.symm same)]
      exact shows.value name positiveName smallName

/-- Replaying records unwinds them. -/
theorem Reconstruction.replayAll_shows {records : List Record} (shows : Shows numVars values model)
    (inRange : ∀ record ∈ records, ∀ literal ∈ record.literals,
      0 < literal.var ∧ literal.var ≤ numVars) :
    ∃ after, replayAll records.reverse model = some after ∧
      Shows numVars (unwind records values) after := by
  unfold unwind
  rw [List.foldr_eq_foldl_reverse]
  have inRange' : ∀ record ∈ records.reverse, ∀ literal ∈ record.literals,
      0 < literal.var ∧ literal.var ≤ numVars := fun record member =>
    inRange record (List.mem_reverse.1 member)
  generalize records.reverse = records at inRange'
  induction records generalizing values model with
  | nil => exact ⟨model, rfl, shows⟩
  | cons record rest ih =>
    obtain ⟨next, replayed, showsNext⟩ :=
      Record.replay_shows shows (inRange' record List.mem_cons_self)
    obtain ⟨after, rest, showsAfter⟩ := ih showsNext (fun other member =>
      inRange' other (List.mem_cons_of_mem _ member))
    refine ⟨after, ?_, showsAfter⟩
    simp [replayAll, replayed, rest]

end Replay

/-! ## Values from literals -/

/-- The value that a list of literals gives a variable: that of its last literal. -/
def valueIn : List Int → Nat → Option Bool
  | [], _ => none
  | literal :: rest, name =>
    valueIn rest name <|> if literal.natAbs = name then some (decide (0 < literal)) else none

/-- The literals that say what values some variables have. -/
def listing (numVars : Nat) (values : Assignment) : List Int :=
  (List.range' 1 numVars).map fun (name : Nat) => if values name then (name : Int) else -(name : Int)

/-- A listing has one literal for every variable, in order. -/
theorem natAbs_listing (numVars : Nat) (values : Assignment) :
    (listing numVars values).map Int.natAbs = List.range' 1 numVars := by
  unfold listing
  rw [List.map_map]
  refine (List.map_congr_left fun name _ => ?_).trans (List.map_id _)
  simp only [Function.comp_apply]
  split
  · rfl
  · exact (Int.natAbs_neg _).trans rfl

/-- A literal is listed if it holds. -/
theorem mem_listing {numVars : Nat} {values : Assignment} {literal : Int}
    (positive : literal ≠ 0) (small : literal.natAbs ≤ numVars)
    (holds : values literal.natAbs = decide (0 < literal)) : literal ∈ listing numVars values := by
  refine List.mem_map.2 ⟨literal.natAbs, List.mem_range'_1.2 (by omega), ?_⟩
  by_cases isPositive : 0 < literal
  · rw [holds, decide_eq_true isPositive, if_pos rfl]
    omega
  · rw [holds, decide_eq_false isPositive, if_neg Bool.false_ne_true]
    omega

namespace Simplifier

/-- Literals in range are read, later ones over earlier ones. -/
theorem readModel_eq {literals : List Int} {values : Model}
    (inRange : ∀ literal ∈ literals, literal ≠ 0 ∧ literal.natAbs < values.size) :
    ∃ after, readModel literals values = .ok after ∧ after.size = values.size ∧
      ∀ name < values.size,
        (after[name]?).join = (valueIn literals name <|> (values[name]?).join) := by
  induction literals generalizing values with
  | nil => exact ⟨values, rfl, rfl, fun _ _ => rfl⟩
  | cons literal rest ih =>
    obtain ⟨nonzero, inside⟩ := inRange literal List.mem_cons_self
    have sameSize : (values.setIfInBounds literal.natAbs (some (decide (0 < literal)))).size =
        values.size := Array.size_setIfInBounds
    obtain ⟨after, read, size, value⟩ := ih fun other member =>
      sameSize.symm ▸ inRange other (List.mem_cons_of_mem _ member)
    refine ⟨after, ?_, size.trans sameSize, fun name small => ?_⟩
    · rw [readModel, if_neg nonzero, if_neg (by omega), read]
    · rw [value name (by rw [sameSize]; exact small), valueIn, Array.getElem?_setIfInBounds]
      by_cases same : literal.natAbs = name
      · subst same
        simp [inside]
      · simp [same]

/-- Root literals are set, and nothing else. -/
theorem setRoot_eq {literals : List Literal} {values : Model}
    (distinct : (literals.map Literal.var).Nodup)
    (inRange : ∀ literal ∈ literals, literal.var < values.size) :
    ∃ after, setRoot literals values = some after ∧ after.size = values.size ∧
      (∀ literal ∈ literals, after[literal.var]? = some (some literal.isPositive)) ∧
      ∀ name : Nat, (∀ literal ∈ literals, literal.var ≠ name) → after[name]? = values[name]? := by
  induction literals generalizing values with
  | nil => exact ⟨values, rfl, rfl, by simp, fun _ _ => rfl⟩
  | cons literal rest ih =>
    obtain ⟨fresh, distinctRest⟩ := List.nodup_cons.1 distinct
    have inside := inRange literal List.mem_cons_self
    have sameSize : (values.setIfInBounds literal.var (some literal.isPositive)).size =
        values.size := Array.size_setIfInBounds
    obtain ⟨after, set, size, atRoot, others⟩ := ih distinctRest fun other member =>
      sameSize.symm ▸ inRange other (List.mem_cons_of_mem _ member)
    refine ⟨after, ?_, size.trans sameSize, ?_, fun name absent => ?_⟩
    · rw [setRoot, if_pos inside, set]
    · refine List.forall_mem_cons.2 ⟨?_, atRoot⟩
      rw [others literal.var fun other member same =>
        fresh (List.mem_map.2 ⟨other, member, same⟩)]
      simp [inside]
    · rw [others name fun other member => absent other (List.mem_cons_of_mem _ member),
        Array.getElem?_setIfInBounds, if_neg (absent literal List.mem_cons_self)]

end Simplifier

namespace Numbering

variable {names : List Nat}

/-- Only listed variables have a place. -/
theorem getElem?_of_lastPlace? {name : Nat} {first place : Nat}
    (found : lastPlace? name names first = some place) :
    ∃ i, names[i]? = some name ∧ place = first + i := by
  induction names generalizing first place with
  | nil => cases found
  | cons other rest ih =>
    unfold lastPlace? at found
    split at found
    next later isLater =>
      obtain ⟨i, atPlace, rfl⟩ := ih isLater
      cases found
      exact ⟨i + 1, atPlace, by omega⟩
    next =>
      split at found
      next same =>
        cases found
        exact ⟨0, by simp [same], rfl⟩
      next => cases found

/-- Every listed variable has a place. -/
theorem exists_lastPlace? {name : Nat} (member : name ∈ names) (first : Nat) :
    ∃ place, lastPlace? name names first = some place := by
  induction names generalizing first with
  | nil => cases member
  | cons other rest ih =>
    unfold lastPlace?
    rcases List.mem_cons.1 member with same | later
    · split
      · exact ⟨_, rfl⟩
      · exact ⟨first, if_pos same.symm⟩
    · obtain ⟨place, found⟩ := ih later (first + 1)
      exact ⟨place, by rw [found]⟩

variable {numbering : Numbering} {name : Nat}

/-- The number of a variable is its place counted from one. -/
theorem number?_eq_some (distinct : numbering.names.toList.Nodup) {number : Nat} :
    numbering.number? name = some number ↔
      ∃ i, numbering.names.toList[i]? = some name ∧ number = i + 1 := by
  unfold number?
  constructor
  · intro found
    obtain ⟨i, atPlace, rfl⟩ := getElem?_of_lastPlace? found
    exact ⟨i, atPlace, Nat.add_comm 1 i⟩
  · rintro ⟨i, atPlace, rfl⟩
    obtain ⟨place, found⟩ := exists_lastPlace? (List.mem_of_getElem? atPlace) 1
    obtain ⟨j, atOther, rfl⟩ := getElem?_of_lastPlace? found
    have inside : i < numbering.names.toList.length := (List.getElem?_eq_some_iff.1 atPlace).1
    have same : i = j := (List.getElem?_inj inside distinct).1 (atPlace.trans atOther.symm)
    rw [found, same, Nat.add_comm]

/-- The values of the numbers go to the variables that have them. -/
theorem spread_eq {model result : Model} (place : Nat) (distinct : names.Nodup)
    (inRange : ∀ name ∈ names, name < result.size) :
    ∃ after, spread model (names.zipIdx place) result = some after ∧
      after.size = result.size ∧
      (∀ i name, names[i]? = some name →
        after[name]? = some ((model[place + i + 1]?).join <|> (result[name]?).join)) ∧
      ∀ name, name ∉ names → after[name]? = result[name]? := by
  induction names generalizing place result with
  | nil => exact ⟨result, rfl, rfl, by simp, fun _ _ => rfl⟩
  | cons first rest ih =>
    obtain ⟨fresh, distinctRest⟩ := List.nodup_cons.1 distinct
    obtain ⟨inside, inRangeRest⟩ := List.forall_mem_cons.1 inRange
    -- What is put at the first variable, and the table after it.
    have step : ∃ next : Model, spread model ((first :: rest).zipIdx place) result =
        spread model (rest.zipIdx (place + 1)) next ∧ next.size = result.size ∧
        next[first]? = some ((model[place + 1]?).join <|> (result[first]?).join) ∧
        ∀ name, name ≠ first → next[name]? = result[name]? := by
      rw [List.zipIdx_cons, spread]
      cases value : (model[place + 1]?).join with
      | none =>
        refine ⟨result, rfl, rfl, ?_, fun _ _ => rfl⟩
        simp [inside]
      | some value =>
        refine ⟨_, if_pos inside, Array.size_setIfInBounds, ?_, fun name different => ?_⟩
        · simp [inside]
        · rw [Array.getElem?_setIfInBounds, if_neg (Ne.symm different)]
    obtain ⟨next, isNext, sizeNext, atFirst, others⟩ := step
    obtain ⟨after, spreads, size, listed, unlisted⟩ := ih (place + 1) distinctRest
      fun name member => sizeNext.symm ▸ inRangeRest name member
    refine ⟨after, isNext.trans spreads, size.trans sizeNext, fun i name atPlace => ?_,
      fun name absent => ?_⟩
    · cases i with
      | zero =>
        obtain rfl : first = name := by simpa using atPlace
        rw [unlisted first fresh, atFirst, Nat.add_zero]
      | succ i =>
        have member : name ∈ rest := List.mem_of_getElem? atPlace
        rw [listed i name atPlace, others name fun same => fresh (same ▸ member)]
        congr 4
        omega
    · simp only [List.mem_cons, not_or] at absent
      rw [unlisted name absent.2, others name absent.1]

/-- The table that the values of the numbers stand for. -/
theorem decompress_eq {numVars : Nat} (distinct : numbering.names.toList.Nodup)
    (inRange : ∀ name ∈ numbering.names.toList, name ≤ numVars) (model : Model) :
    ∃ after, numbering.decompress model numVars = some after ∧ after.size = numVars + 1 ∧
      ∀ name, (after[name]?).join =
        (numbering.number? name).bind fun number => (model[number]?).join := by
  obtain ⟨after, spreads, size, listed, unlisted⟩ := @spread_eq numbering.names.toList model
    (Array.replicate (numVars + 1) none) 0 distinct fun name member => by
      rw [Array.size_replicate]
      exact Nat.lt_succ_of_le (inRange name member)
  refine ⟨after, spreads, by rw [size, Array.size_replicate], fun name => ?_⟩
  have blank : ((Array.replicate (numVars + 1) (none : Option Bool))[name]?).join = none := by
    rw [Array.getElem?_replicate]
    split <;> rfl
  cases found : numbering.number? name with
  | none =>
    have absent : name ∉ numbering.names.toList := by
      intro member
      obtain ⟨place, isPlace⟩ := exists_lastPlace? member 1
      rw [number?, isPlace] at found
      cases found
    rw [unlisted name absent, blank]
    rfl
  | some number =>
    obtain ⟨i, atPlace, rfl⟩ := (number?_eq_some distinct).1 found
    rw [listed i name atPlace, blank, Nat.zero_add]
    simp

end Numbering

/-- What is open becomes true. -/
theorem Reconstruction.complete_shows {numVars : Nat} {model : Model}
    (size : model.size = numVars + 1) :
    Shows numVars (fun name => ((model[name]?).join).getD true) (complete model) := by
  refine ⟨by simp [complete, size], fun name positive small => ?_⟩
  have inside : name < model.size := by omega
  simp [complete, inside, Nat.ne_of_gt positive]

/-! ## The whole extension -/

namespace Simplifier

variable {simplifier : Simplifier} {records : List Record} {literals : List Int} {read : Model}

/-- The exported number of a variable. -/
def number? (simplifier : Simplifier) (name : Nat) : Option Nat :=
  if simplifier.numbering.isActive then simplifier.numbering.number? name else some name

/-- Without a numbering every variable has its own number. -/
theorem number?_of_inactive (inactive : simplifier.numbering.isActive = false) (name : Nat) :
    simplifier.number? name = some name := by
  unfold number?
  rw [inactive, if_neg Bool.false_ne_true]

/-- What the export rests on: root literals and numbered variables belong to the
formula, and root literals are in order. -/
structure Exportable (simplifier : Simplifier) : Prop where
  trail : simplifier.engine.trail.Sound
  orderly : simplifier.engine.trail.Orderly
  root : ∀ literal ∈ simplifier.engine.trail.facts,
    0 < literal.var ∧ literal.var ≤ simplifier.numVars
  numbered : simplifier.numbering.isActive = true → simplifier.numbering.names.toList.Nodup ∧
    ∀ name ∈ simplifier.numbering.names.toList, 0 < name ∧ name ≤ simplifier.numVars

/-- What the extension of models rests on: the records are those of the stack, and
they belong to the formula. -/
structure Extensible (simplifier : Simplifier) (records : List Record) : Prop
    extends Exportable simplifier where
  intact : simplifier.engine.poisoned = none
  stack : simplifier.engine.records = ({} : Reconstruction).pushAll records
  inRange : ∀ record ∈ records, ∀ literal ∈ record.literals,
    0 < literal.var ∧ literal.var ≤ simplifier.numVars ∧ literal ≠ Literal.separator

theorem Exportable.rootLiterals (exportable : simplifier.Exportable) :
    simplifier.engine.trail.rootLiterals = simplifier.engine.trail.facts :=
  exportable.trail.rootLiterals.trans exportable.orderly.symm

/-- The values that literals give the variables, before any record is unwound:
those of the root literals, else those of their numbers, else true. -/
structure Reads (simplifier : Simplifier) (literals : List Int) (values : Assignment) : Prop where
  root : ∀ literal ∈ simplifier.engine.trail.facts, literal.Holds values
  other : ∀ name, 0 < name → name ≤ simplifier.numVars →
    (∀ literal ∈ simplifier.engine.trail.facts, literal.var ≠ name) →
    values name = ((simplifier.number? name).bind (valueIn literals)).getD true

/-- Literals in range are read into an empty table. -/
theorem exists_read {size : Nat}
    (inRange : ∀ literal ∈ literals, literal ≠ 0 ∧ literal.natAbs ≤ size) :
    ∃ read, readModel literals (Array.replicate (size + 1) none) = .ok read ∧
      read.size = size + 1 ∧ ∀ name ≤ size, (read[name]?).join = valueIn literals name := by
  have blank : (Array.replicate (size + 1) (none : Option Bool)).size = size + 1 :=
    Array.size_replicate
  have inside : ∀ literal ∈ literals, literal ≠ 0 ∧
      literal.natAbs < (Array.replicate (size + 1) (none : Option Bool)).size := by
    intro literal member
    obtain ⟨nonzero, small⟩ := inRange literal member
    exact ⟨nonzero, blank.symm ▸ Nat.lt_succ_of_le small⟩
  obtain ⟨read, isRead, readSize, value⟩ := readModel_eq inside
  refine ⟨read, isRead, readSize.trans blank, fun name small => ?_⟩
  rw [value name (blank.symm ▸ Nat.lt_succ_of_le small), Array.getElem?_replicate]
  split <;> simp

/-- The table of the variables of the formula for a table of exported ones. -/
theorem exists_unnumbered (exportable : simplifier.Exportable)
    (size : read.size = simplifier.numExported + 1)
    (value : ∀ name ≤ simplifier.numExported, (read[name]?).join = valueIn literals name) :
    ∃ after, (if simplifier.numbering.isActive then
        simplifier.numbering.decompress read simplifier.numVars else some read) = some after ∧
      after.size = simplifier.numVars + 1 ∧ ∀ name ≤ simplifier.numVars,
        (after[name]?).join = (simplifier.number? name).bind (valueIn literals) := by
  unfold number?
  unfold numExported at size value
  by_cases active : simplifier.numbering.isActive = true
  · rw [if_pos active] at size value ⊢
    obtain ⟨distinct, inRange⟩ := exportable.numbered active
    obtain ⟨after, decompressed, afterSize, afterValue⟩ := Numbering.decompress_eq distinct
      (fun name member => (inRange name member).2) read
    refine ⟨after, decompressed, afterSize, fun name _ => ?_⟩
    rw [afterValue name, if_pos active]
    cases found : simplifier.numbering.number? name with
    | none => rfl
    | some number =>
      obtain ⟨i, atPlace, rfl⟩ := (Numbering.number?_eq_some distinct).1 found
      have inside : i < simplifier.numbering.names.toList.length :=
        (List.getElem?_eq_some_iff.1 atPlace).1
      exact value (i + 1) inside
  · rw [if_neg active] at size value ⊢
    refine ⟨read, rfl, size, fun name small => ?_⟩
    rw [if_neg active]
    exact value name small

/-- Before any record is unwound the values are those of the numbers and of the root
literals. -/
theorem exists_rooted (exportable : simplifier.Exportable)
    (size : read.size = simplifier.numExported + 1)
    (value : ∀ name ≤ simplifier.numExported, (read[name]?).join = valueIn literals name) :
    ∃ rooted, simplifier.extendValues read = simplifier.engine.records.extend rooted ∧
      rooted.size = simplifier.numVars + 1 ∧
      simplifier.Reads literals fun name => ((rooted[name]?).join).getD true := by
  obtain ⟨unnumbered, isUnnumbered, unnumberedSize, unnumberedValue⟩ :=
    exists_unnumbered exportable size value
  have inTable : ∀ literal ∈ simplifier.engine.trail.facts,
      literal.var < unnumbered.size := fun literal atRoot =>
    unnumberedSize.symm ▸ Nat.lt_succ_of_le (exportable.root literal atRoot).2
  obtain ⟨rooted, isRooted, rootedSize, atRoot, offRoot⟩ :=
    setRoot_eq simplifier.engine.trail.nodup_facts inTable
  refine ⟨rooted, ?_, rootedSize.trans unnumberedSize, ?_, ?_⟩
  · unfold extendValues
    rw [exportable.rootLiterals]
    by_cases active : simplifier.numbering.isActive = true
    · rw [if_pos active] at isUnnumbered ⊢
      simp [isUnnumbered, isRooted]
    · rw [if_neg active] at isUnnumbered ⊢
      simp [Option.some.inj isUnnumbered, isRooted]
  · intro literal member
    change ((rooted[literal.var]?).join).getD true = literal.isPositive
    rw [atRoot literal member]
    rfl
  · intro name _ small absent
    rw [offRoot name absent, unnumberedValue name small]

/-- Values of exported variables are extended to all variables. -/
theorem exists_extended (extensible : simplifier.Extensible records)
    (size : read.size = simplifier.numExported + 1)
    (value : ∀ name ≤ simplifier.numExported, (read[name]?).join = valueIn literals name) :
    ∃ values final, simplifier.Reads literals values ∧
      simplifier.extendValues read = some final ∧
      Shows simplifier.numVars (unwind records values) final := by
  obtain ⟨rooted, extended, rootedSize, reads⟩ := exists_rooted extensible.toExportable size value
  have shows := Reconstruction.complete_shows rootedSize
  have plain : ∀ record ∈ records, Literal.separator ∉ record.literals :=
    fun record member inside => (extensible.inRange record member _ inside).2.2 rfl
  have fits : ∀ record ∈ records.map Record.normal, ∀ literal ∈ record.literals,
      0 < literal.var ∧ literal.var ≤ simplifier.numVars := by
    intro record member literal inside
    obtain ⟨original, isRecord, rfl⟩ := List.mem_map.1 member
    obtain ⟨positive, small, _⟩ :=
      extensible.inRange original isRecord literal (Record.mem_normal.1 inside)
    exact ⟨positive, small⟩
  obtain ⟨final, isFinal, showsFinal⟩ := Reconstruction.replayAll_shows shows fits
  have unwound : unwind (records.map Record.normal) = unwind records := by
    funext values
    unfold unwind
    rw [List.foldr_map]
    simp only [Record.repair_normal]
  refine ⟨_, final, reads, ?_, unwound ▸ showsFinal⟩
  rw [extended, extensible.stack, Reconstruction.extend, Reconstruction.records_pushAll plain, isFinal]

/-- Extending literals in range never fails, and says what the values are. -/
theorem extendModel_eq (extensible : simplifier.Extensible records)
    (isOpen : simplifier.engine.unsat = false)
    (inRange : ∀ literal ∈ literals, literal ≠ 0 ∧ literal.natAbs ≤ simplifier.numExported) :
    ∃ values, simplifier.Reads literals values ∧ extendModel literals simplifier =
      .done (listing simplifier.numVars (unwind records values)) simplifier := by
  obtain ⟨read, isRead, readSize, value⟩ := exists_read inRange
  obtain ⟨values, final, reads, extended, shows⟩ := exists_extended extensible readSize value
  refine ⟨values, reads, ?_⟩
  have listed : ((List.range' 1 simplifier.numVars).map fun (name : Nat) =>
      if (final[name]?).join = some true then (name : Int) else -(name : Int)) =
      listing simplifier.numVars (unwind records values) := by
    refine List.map_congr_left fun name member => ?_
    obtain ⟨positive, small⟩ := List.mem_range'_1.1 member
    rw [shows.value name positive (by omega)]
    simp
  unfold extendModel
  rw [Run.bind_of_done (Run.get_apply simplifier), extensible.intact]
  dsimp only
  rw [isOpen, if_neg Bool.false_ne_true, isRead]
  dsimp only
  rw [extended, Run.bind_of_done (Run.access_some final simplifier), listed]
  rfl

end Simplifier

end CnfSimplifier
