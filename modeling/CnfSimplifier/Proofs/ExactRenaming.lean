import CnfSimplifier.Proofs.ModelExtension

/-!
# The exported formula is a renaming of the formula

Over a whole history the exported formula, read as clauses, is the list of the root
units followed by the live clauses, with every variable renamed, as long as every
clause that was added is over variables that have numbers or are new. The numbering is
built once; a clause that comes in later over a variable that was left out then loses
the literal on export.
-/
namespace CnfSimplifier

namespace Simplifier

variable {start final : Simplifier} {entries : List Entry} {settings : Settings}
  {formula : List (List Int)}

/-- The root units and the live clauses in slot order, under other names. -/
def renamedClauses (simplifier : Simplifier) (rename : Nat → Nat) : List (List Int) :=
  (simplifier.engine.trail.rootLiterals.map fun literal => [literal.renamed rename]) ++
    simplifier.engine.arena.liveClauses.map fun clause =>
      clause.literals.map (Literal.renamed rename)

/-- No unit, no clause and no literal of a clause is missing from the export. -/
theorem exists_exact_renaming (made : ofClauses settings formula = .done () start)
    (history : History start entries final)
    (small : ∀ clause ∈ formula, ∀ literal ∈ clause, literal.natAbs < 2 ^ 31)
    (isOpen : final.engine.unsat = false)
    (known : ∀ entry ∈ entries, ∀ clause ∈ entry.added, ∀ literal ∈ clause,
      entry.before.Numbered (Literal.ofInt literal).var ∨
        entry.before.numVars < (Literal.ofInt literal).var) :
    ∃ rename : Nat → Nat, Function.Injective rename ∧
      final.exportedClauses = final.renamedClauses rename := by
  obtain ⟨blank, base, records, isBlank, _, course, unrun, _⟩ := history.exists_course made small
  have knownAll : ∀ entry ∈ entries ++ base, ∀ clause ∈ entry.added, ∀ literal ∈ clause,
      entry.before.Numbered (Literal.ofInt literal).var ∨
        entry.before.numVars < (Literal.ofInt literal).var := by
    intro entry member clause isAdded literal inside
    obtain ⟨later, earlier, split⟩ := List.append_of_mem member
    cases run : hasRun earlier with
    | false =>
      rw [split] at course
      obtain ⟨pushed, before⟩ := course.exists_before
      obtain ⟨_, inactive, _⟩ := before.calm isBlank run
      exact .inl fun active => absurd (active.symm.trans inactive) (by decide)
    | true => exact known entry (mem_of_split split unrun run) clause isAdded literal inside
  have numbers := numbers_of_numbered fun name => course.numbered_of_appears isBlank knownAll
  have exportable := course.standing.exportable isOpen
  let _ : Realm := .all
  refine ⟨final.rename, rename_injective exportable, ?_⟩
  rw [exportedClauses_eq exportable course.standing.sound]
  exact exportedLists_eq exportable course.standing.sound isOpen numbers

/-- A clause over a numbered variable and a new one is exported whole. -/
theorem exists_exact_renaming_after_numbering :
    ∃ start entries final,
      ofClauses { Settings.bare {} with blockedClauses := true, renumbering := true }
        [[1, 2], [3, 4]] = .done () start ∧
      History start entries final ∧ given entries = [[-4, 5]] ∧
      final.exportedClauses = [[-1, 2]] ∧
      ∃ rename : Nat → Nat, Function.Injective rename ∧
        final.exportedClauses = final.renamedClauses rename := by
  obtain ⟨start, entries, final, made, history, checked⟩ := exists_of_trial
    (ofClauses { Settings.bare {} with blockedClauses := true, renumbering := true } [[1, 2], [3, 4]])
    [.addClause [-4, 5], .run false, .freeze 4]
    (fun entries final => decide (given entries = [[-4, 5]] ∧ final.engine.unsat = false ∧
      final.exportedClauses = [[-1, 2]] ∧
      ∀ entry ∈ entries, ∀ clause ∈ entry.added, ∀ literal ∈ clause,
        entry.before.Numbered (Literal.ofInt literal).var ∨
          entry.before.numVars < (Literal.ofInt literal).var)) (by decide +kernel)
  obtain ⟨isGiven, isOpen, exported, known⟩ := of_decide_eq_true checked
  exact ⟨start, entries, final, made, history, isGiven, exported,
    exists_exact_renaming made history (by decide) isOpen known⟩

/-- A clause over a variable that was left out of the numbering is accepted and loses a
literal on export. -/
theorem not_exact_renaming_of_unnumbered :
    ∃ start entries final,
      ofClauses { Settings.bare {} with blockedClauses := true, renumbering := true }
        [[1, 2], [3, 4]] = .done () start ∧
      History start entries final ∧ given entries = [[1, 4]] ∧ final.engine.unsat = false ∧
      final.exportedClauses = [[1]] ∧
      ¬ ∃ rename : Nat → Nat, Function.Injective rename ∧
        final.exportedClauses = final.renamedClauses rename := by
  obtain ⟨start, entries, final, made, history, checked⟩ := exists_of_trial
    (ofClauses { Settings.bare {} with blockedClauses := true, renumbering := true } [[1, 2], [3, 4]])
    [.addClause [1, 4], .run false, .freeze 4]
    (fun entries final => decide (given entries = [[1, 4]] ∧ final.engine.unsat = false ∧
      final.exportedClauses = [[1]] ∧
      (final.renamedClauses id).map List.length = [2])) (by decide +kernel)
  obtain ⟨isGiven, isOpen, exported, lengths⟩ := of_decide_eq_true checked
  refine ⟨start, entries, final, made, history, isGiven, isOpen, exported, ?_⟩
  rintro ⟨rename, _, same⟩
  have sameLengths : (final.renamedClauses rename).map List.length =
      (final.renamedClauses id).map List.length := by
    simp [renamedClauses, Function.comp_def]
  rw [← same, exported, lengths] at sameLengths
  exact absurd sameLengths (by decide)

end Simplifier

end CnfSimplifier
