import CnfSimplifier.Proofs.History

/-!
# Models of what is left extend to models of everything that was given

Over a whole history a model of the exported formula is extended to a model of the
formula that the history started from and of every clause that was added, as long as
clauses are added only over variables that no record has chosen. Variables that were
protected since before the first run are such variables.
-/
namespace CnfSimplifier

theorem Literal.var_ofInt {value : Int} (nonzero : value ≠ 0) (small : value.natAbs < 2 ^ 31) :
    (Literal.ofInt value).var = value.natAbs := by
  rw [Literal.ofInt_eq, Literal.var_ofVar (by omega) (by simp only [UInt32.size]; omega)]

namespace Simplifier

variable {start final blank : Simplifier} {records : List Record} {entries : List Entry}
  {literals : List Int} {settings : Settings} {formula : List (List Int)}
  {clauses : List (List Int)}

/-- Literals are extended to a model of some clauses: one literal for every variable,
in order, and among them one of every clause. -/
def ExtendsTo (simplifier : Simplifier) (literals : List Int) (clauses : List (List Int)) : Prop :=
  ∃ model, extendModel literals simplifier = .done model simplifier ∧
    model.map Int.natAbs = List.range' 1 simplifier.numVars ∧
    ∀ clause ∈ clauses, ∃ literal ∈ clause, literal ∈ model

/-- All literals name variables that have an ordinary literal. -/
def InRange (clauses : List (List Int)) : Prop :=
  ∀ clause ∈ clauses, ∀ literal ∈ clause, literal ≠ 0 ∧ literal.natAbs ≤ Literal.maxVar

instance (clauses : List (List Int)) : Decidable (InRange clauses) :=
  inferInstanceAs (Decidable (∀ clause ∈ clauses, ∀ literal ∈ clause, _ ∧ _))

theorem InRange.small (inRange : InRange clauses) :
    ∀ clause ∈ clauses, ∀ literal ∈ clause, literal.natAbs < 2 ^ 31 := by
  intro clause member literal inside
  have bound : Literal.maxVar < 2 ^ 31 := by decide
  exact (inRange clause member literal inside).2.trans_lt bound

/-- A number in range is read as its variable. -/
theorem InRange.var_ofInt (inRange : InRange clauses) {clause : List Int}
    (member : clause ∈ clauses) {literal : Int} (inside : literal ∈ clause) :
    (Literal.ofInt literal).var = literal.natAbs :=
  Literal.var_ofInt (inRange clause member literal inside).1
    (inRange.small clause member literal inside)

/-- Integers in range mean what their literals mean. -/
theorem InRange.satisfies_iff (inRange : InRange clauses) {clause : List Int}
    (member : clause ∈ clauses) {values : Assignment} :
    Satisfies values clause ↔ ClauseHolds values (clause.map Literal.ofInt) :=
  satisfies_iff_clauseHolds fun literal inside =>
    ⟨(inRange clause member literal inside).1, inRange.small clause member literal inside⟩

namespace Course

/-- The records of a course keep clear of the separator. -/
theorem extensible (course : Course start entries records final) (blank : start.Blank)
    (inRange : InRange (given entries)) (isOpen : final.engine.unsat = false) :
    final.Extensible records := by
  refine course.standing.extensible isOpen fun record member literal inside => ?_
  obtain ⟨positive, small, clause, isGiven, value, isValue, same⟩ :=
    course.records_inRange blank record member literal inside
  refine ⟨positive, small, Literal.ne_separator_of_le_maxVar ?_⟩
  rw [← same, inRange.var_ofInt isGiven isValue]
  exact (inRange clause isGiven value isValue).2

/-- Literals whose values satisfy the formula are extended to a model of everything
that was given. -/
theorem extendsTo (course : Course start entries records final) (blank : start.Blank)
    (inRange : InRange (given entries)) (isOpen : final.engine.unsat = false)
    (spared : ∀ later entry earlier pushed, entries = later ++ entry :: earlier →
      Course start earlier pushed entry.before → ∀ clause ∈ entry.added, ∀ literal ∈ clause,
        ∀ record ∈ pushed, record.chosen.var ≠ (Literal.ofInt literal).var)
    (proper : ∀ literal ∈ literals, literal ≠ 0 ∧ literal.natAbs ≤ final.numExported)
    (holds : ∀ values, final.Reads literals values → final.engine.picture.Holds values) :
    final.ExtendsTo literals (given entries) := by
  have extensible := course.extensible blank inRange isOpen
  obtain ⟨values, reads, extended⟩ := extendModel_eq extensible isOpen proper
  refine ⟨_, extended, natAbs_listing _ _, fun clause isGiven => ?_⟩
  have satisfied := course.allHold_unwind spared isOpen (holds values reads) clause isGiven
  refine exists_mem_listing ((inRange.satisfies_iff isGiven).2 satisfied) fun literal inside => ?_
  obtain ⟨_, small⟩ := course.given_inRange clause isGiven literal inside
  rw [inRange.var_ofInt isGiven inside] at small
  exact ⟨(inRange clause isGiven literal inside).1, small⟩

/-- A model of the exported formula gives values that satisfy the formula. -/
theorem holds_of_exported (course : Course start entries records final)
    (isOpen : final.engine.unsat = false)
    (numbered : ∀ name, final.engine.picture.Appears name → final.Numbered name)
    (satisfied : ∀ clause ∈ final.exportedClauses, SatisfiedBy literals clause)
    {values : Assignment} (reads : final.Reads literals values) :
    final.engine.picture.Holds values := by
  let _ : Realm := .all
  exact reads.holds (course.standing.exportable isOpen) course.standing.sound isOpen
    (numbers_of_numbered numbered) satisfied

end Course

/-- The records that can be read off the stack choose what the pushed ones chose. -/
theorem Course.exists_read (course : Course start entries records final) (blank : start.Blank)
    (inRange : InRange (given entries)) {record : Record} (member : record ∈ records) :
    ∃ read ∈ final.engine.records.records, read.chosen = record.chosen := by
  have plain : ∀ record ∈ records, Literal.separator ∉ record.literals := by
    intro other isRecord inside
    obtain ⟨_, _, clause, isGiven, value, isValue, same⟩ :=
      course.records_inRange blank other isRecord _ inside
    refine @Literal.ne_separator_of_le_maxVar Literal.separator ?_ rfl
    rw [← same, inRange.var_ofInt isGiven isValue]
    exact (inRange clause isGiven value isValue).2
  rw [course.standing.stack, Reconstruction.records_pushAll plain]
  exact ⟨record.normal, List.mem_reverse.2 (List.mem_map_of_mem member), rfl⟩

/-- Without a numbering every clause that was accepted is honoured, as long as none
of them mentions a variable that a record on the stack had chosen. -/
theorem extendsTo_of_spared (plain : settings.renumbering = false)
    (made : ofClauses settings formula = .done () start) (history : History start entries final)
    (inRange : InRange (formula ++ given entries)) (isOpen : final.engine.unsat = false)
    (spared : ∀ entry ∈ entries, ∀ clause ∈ entry.added, ∀ literal ∈ clause,
      ∀ record ∈ entry.before.engine.records.records, record.chosen.var ≠ literal.natAbs) :
    (∀ literals : List Int, (∀ literal ∈ literals, literal ≠ 0 ∧ literal.natAbs ≤ final.numVars) →
      (∀ clause ∈ final.exportedClauses, SatisfiedBy literals clause) →
      final.ExtendsTo literals (formula ++ given entries)) ∧
    ((∃ values, ∀ clause ∈ final.exportedClauses, Satisfies values clause) →
      ∃ values, ∀ clause ∈ formula ++ given entries, Satisfies values clause) := by
  obtain ⟨blank, base, records, isBlank, sameSettings, course, unrun, same⟩ :=
    history.exists_course made fun clause member =>
      inRange.small clause (List.mem_append_left _ member)
  have inRangeAll : InRange (given (entries ++ base)) := fun clause member =>
    inRange clause ((same clause).1 member)
  obtain ⟨inactive, _⟩ := course.inactive isBlank (sameSettings ▸ plain)
  have numExported : final.numExported = final.numVars := by
    unfold numExported
    rw [inactive, if_neg Bool.false_ne_true]
  have numbered : ∀ name, final.engine.picture.Appears name → final.Numbered name :=
    fun name _ active => absurd (active.symm.trans inactive) (by decide)
  have sparedAll : ∀ later entry earlier pushed, entries ++ base = later ++ entry :: earlier →
      Course blank earlier pushed entry.before → ∀ clause ∈ entry.added, ∀ literal ∈ clause,
        ∀ record ∈ pushed, record.chosen.var ≠ (Literal.ofInt literal).var := by
    intro later entry earlier pushed split before clause isAdded literal inside record member
    cases run : hasRun earlier with
    | false =>
      obtain ⟨rfl, _⟩ := before.calm isBlank run
      cases member
    | true =>
      have isGiven : ∀ other, other ∈ given (entry :: earlier) → other ∈ given (entries ++ base) := by
        intro other inEarlier
        rw [split]
        unfold given
        rw [List.flatMap_append]
        exact List.mem_append_right _ inEarlier
      obtain ⟨read, onStack, sameChoice⟩ := before.exists_read isBlank
        (fun other inEarlier => inRangeAll other (isGiven other (List.mem_append_right _ inEarlier)))
        member
      rw [inRangeAll.var_ofInt (isGiven clause (List.mem_append_left _ isAdded)) inside, ← sameChoice]
      exact spared entry (mem_of_split split unrun run) clause isAdded literal inside read onStack
  refine ⟨fun literals proper satisfied => ?_, ?_⟩
  · obtain ⟨model, isModel, complete, satisfies⟩ := course.extendsTo isBlank inRangeAll isOpen
      sparedAll (numExported ▸ proper) fun values reads =>
        course.holds_of_exported isOpen numbered satisfied reads
    exact ⟨model, isModel, complete, fun clause member =>
      satisfies clause ((same clause).2 member)⟩
  · rintro ⟨renamed, satisfied⟩
    let _ : Realm := .all
    have holds := holds_of_satisfies (course.standing.exportable isOpen) course.standing.sound isOpen
      (numbers_of_numbered numbered) satisfied
    have all := course.allHold_unwind sparedAll isOpen holds
    exact ⟨_, fun clause member =>
      (inRange.satisfies_iff member).2 (all clause ((same clause).2 member))⟩

/-- A clause over a variable that no record has chosen comes in after a run. -/
theorem extendsTo_of_spared_blocked :
    ∃ start entries final,
      ofClauses { Settings.bare {} with blockedClauses := true } [[1, 2], [-1, 3]] =
        .done () start ∧
      History start entries final ∧ given entries = [[-4, 5], [4, 1]] ∧
      (∀ clause ∈ final.exportedClauses, SatisfiedBy [-1, 4, 5] clause) ∧
      final.ExtendsTo [-1, 4, 5] [[1, 2], [-1, 3], [-4, 5], [4, 1]] := by
  obtain ⟨start, entries, final, made, history, checked⟩ := exists_of_trial
    (ofClauses { Settings.bare {} with blockedClauses := true } [[1, 2], [-1, 3]])
    [.addClause [-4, 5], .addClause [4, 1], .run false, .freeze 1]
    (fun entries final => decide (given entries = [[-4, 5], [4, 1]] ∧
      final.engine.unsat = false ∧ final.numVars = 5 ∧
      (∀ clause ∈ final.exportedClauses, SatisfiedBy [-1, 4, 5] clause) ∧
      ∀ entry ∈ entries, ∀ clause ∈ entry.added, ∀ literal ∈ clause,
        ∀ record ∈ entry.before.engine.records.records, record.chosen.var ≠ literal.natAbs))
    (by decide +kernel)
  obtain ⟨isGiven, isOpen, numVars, satisfied, spared⟩ := of_decide_eq_true checked
  have inRange : InRange ([[1, 2], [-1, 3]] ++ given entries) := by
    rw [isGiven]
    decide
  have extended := (extendsTo_of_spared rfl made history inRange isOpen spared).1 [-1, 4, 5]
    (by rw [numVars]; decide) satisfied
  rw [isGiven] at extended
  exact ⟨start, entries, final, made, history, isGiven, satisfied, extended⟩

/-- A blocked clause went with a record that makes the first variable true. Units that
contradict the clause are accepted one by one, and the extension of the one model that
is left breaks the first of them. -/
theorem not_extendsTo_of_chosen :
    ∃ start entries final,
      ofClauses { Settings.bare {} with blockedClauses := true } [[1, 2]] = .done () start ∧
      History start entries final ∧ given entries = [[-2], [-1]] ∧
      (∀ entry ∈ entries, ∃ status, entry.answer = .ok status) ∧
      final.engine.unsat = false ∧
      (∀ clause ∈ final.exportedClauses, SatisfiedBy [-1, -2] clause) ∧
      ¬ final.ExtendsTo [-1, -2] ([[1, 2]] ++ given entries) ∧
      ¬ ∃ values, ∀ clause ∈ [[1, 2]] ++ given entries, Satisfies values clause := by
  obtain ⟨start, entries, final, made, history, checked⟩ := exists_of_trial
    (ofClauses { Settings.bare {} with blockedClauses := true } [[1, 2]])
    [.addClause [-2], .addClause [-1], .run false]
    (fun entries final => decide (given entries = [[-2], [-1]] ∧
      (∀ entry ∈ entries, entry.answer.toOption.isSome = true) ∧ final.engine.unsat = false ∧
      (∀ clause ∈ final.exportedClauses, SatisfiedBy [-1, -2] clause) ∧
      (extendModel [-1, -2] final).value? = some [1, -2])) (by decide +kernel)
  obtain ⟨isGiven, accepted, isOpen, satisfied, extended⟩ := of_decide_eq_true checked
  refine ⟨start, entries, final, made, history, isGiven, fun entry member => ?_, isOpen, satisfied,
    ?_, ?_⟩
  · have isOk := accepted entry member
    cases said : entry.answer with
    | ok status => exact ⟨status, rfl⟩
    | error cause =>
      rw [said] at isOk
      cases isOk
  · rintro ⟨model, isModel, _, satisfies⟩
    rw [isModel] at extended
    obtain rfl : model = [1, -2] := Option.some.inj extended
    rw [isGiven] at satisfies
    exact absurd satisfies (by decide)
  · rintro ⟨values, satisfies⟩
    rw [isGiven] at satisfies
    have either : values 1 = true ∨ values 2 = true := by
      simpa [Satisfies] using satisfies [1, 2] (by decide)
    have notSecond : values 2 = false := by simpa [Satisfies] using satisfies [-2] (by decide)
    have notFirst : values 1 = false := by simpa [Satisfies] using satisfies [-1] (by decide)
    simp [notFirst, notSecond] at either

end Simplifier

end CnfSimplifier
