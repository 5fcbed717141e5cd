import CnfSimplifier.Proofs.Resolution
import CnfSimplifier.Proofs.SubsumptionSearch

/-!
# Scans of two clauses

A resolvent is built by one scan, its length is counted by another, and a third one decides
subsumption. Each compares the clauses literal by literal and goes by the order of the
variables, so none of them looks at all pairs. What they find is nevertheless what a look at
all pairs would find, provided that the clauses are in the form that the arena stores:
ascending, without repetitions and without opposite literals.

The reference for a resolvent is the set of literals of both clauses that are not of the
pivot, and for a tautology a literal whose complement is in the other clause. The reference
for subsumption is containment, as it is or with one literal complemented. Neither reference
mentions an order.
-/
namespace CnfSimplifier

variable {pivot : Nat} {values : Assignment} {first second : List Literal} {literal : Literal}

namespace Tidy

theorem ascends (tidy : Tidy first) : Subsumption.Ascends first :=
  ⟨tidy.present, tidy.pairwise_var⟩

end Tidy

namespace Resolution

/-! ## Resolvents -/

/-- A resolvent on a variable that the clauses have with opposite signs follows from
them. -/
theorem clauseHolds_of_opposite {resolvent : List Literal} (tidyFirst : Tidy first)
    (tidySecond : Tidy second) (member : literal ∈ first)
    (opposite : literal.complement ∈ second)
    (found : resolvent? literal.var first second = some resolvent)
    (holdsFirst : ClauseHolds values first) (holdsSecond : ClauseHolds values second) :
    ClauseHolds values resolvent := by
  have present := tidyFirst.present literal member
  exact clauseHolds_resolvent? (tidyFirst.own member) (tidySecond.own_complement present opposite)
    present found holdsFirst holdsSecond

/-- Building a resolvent and counting its literals agree with resolution on every pair of
stored clauses and for every variable. -/
theorem resolvent?_exact (pivot : Nat) (tidyFirst : Tidy first) (tidySecond : Tidy second) :
    (resolvent? pivot first second = none ↔
      ∃ literal ∈ first, literal.var ≠ pivot ∧ literal.complement ∈ second) ∧
    size? pivot first second = (resolvent? pivot first second).map List.length ∧
    ∀ resolvent, resolvent? pivot first second = some resolvent →
      Tidy resolvent ∧
      (∀ literal,
        literal ∈ resolvent ↔ (literal ∈ first ∨ literal ∈ second) ∧ literal.var ≠ pivot) ∧
      ((∃ literal ∈ first, literal.var = pivot ∧ literal.complement ∈ second) →
        ∀ values, ClauseHolds values first → ClauseHolds values second →
          ClauseHolds values resolvent) := by
  refine ⟨resolvent?_eq_none_iff tidyFirst tidySecond, size?_eq pivot first second, ?_⟩
  intro resolvent found
  refine ⟨tidy_resolvent? tidyFirst tidySecond found, fun literal => mem_resolvent? found, ?_⟩
  rintro ⟨literal, member, rfl, opposite⟩ values
  exact clauseHolds_of_opposite tidyFirst tidySecond member opposite found

/-- Of the clauses `1 2 3` and `-2 3 4` on the variable 2. -/
theorem resolvent?_exact_shared :
    let first := [1, 2, 3].map Literal.ofInt
    let second := [-2, 3, 4].map Literal.ofInt
    Tidy first ∧ Tidy second ∧
      resolvent? 2 first second = some ([1, 3, 4].map Literal.ofInt) ∧
      size? 2 first second = some 3 ∧
      ∀ values, ClauseHolds values first → ClauseHolds values second →
        ClauseHolds values ([1, 3, 4].map Literal.ofInt) := by
  have tidyFirst : Tidy ([1, 2, 3].map Literal.ofInt) := by decide +kernel
  have tidySecond : Tidy ([-2, 3, 4].map Literal.ofInt) := by decide +kernel
  have found : resolvent? 2 ([1, 2, 3].map Literal.ofInt) ([-2, 3, 4].map Literal.ofInt) =
      some ([1, 3, 4].map Literal.ofInt) := by decide +kernel
  obtain ⟨_, counted, built⟩ := resolvent?_exact 2 tidyFirst tidySecond
  rw [found] at counted
  exact ⟨tidyFirst, tidySecond, found, counted, (built _ found).2.2 (by decide +kernel)⟩

end Resolution

namespace Subsumption

/-! ## Subsumption -/

/-- The first clause is part of the second one but for a literal, whose complement the
second one has. -/
def Flips (first second : List Literal) (literal : Literal) : Prop :=
  literal ∈ first ∧ literal.complement ∈ second ∧
    ∀ other ∈ first, other ≠ literal → other ∈ second

/-- No clause is part of a stored clause that has the complement of one of its literals. -/
theorem Flips.not_subset (flips : Flips first second literal) (tidySecond : Tidy second) :
    ¬ first ⊆ second :=
  fun part => tidySecond.unopposed literal (part flips.1) flips.2.1

/-- At most one literal can be flipped. -/
theorem Flips.unique {other : Literal} (flips : Flips first second literal)
    (flipsOther : Flips first second other) (tidySecond : Tidy second) : literal = other := by
  by_contra different
  have inside : literal ∈ second := flipsOther.2.2 literal flips.1 different
  exact tidySecond.unopposed literal inside flips.2.1

theorem relates_iff (tidyFirst : Tidy first) :
    Relates first second ↔ first ⊆ second ∨ ∃ literal, Flips first second literal := by
  have nodup := tidyFirst.ascends.nodup
  unfold Relates Flips
  simp only [flip_subset_iff nodup]

/-- A check finds containment and nothing else takes its place. -/
theorem check_eq_subsumes_iff (tidyFirst : Tidy first) (tidySecond : Tidy second) :
    check first second = .subsumes ↔ first ⊆ second := by
  constructor
  · exact subset_of_check tidyFirst.present
  · intro part
    cases found : check first second with
    | subsumes => rfl
    | strengthens literal =>
      have flips : Flips first second literal := resolvable_of_check tidyFirst.present found
      exact absurd part (flips.not_subset tidySecond)
    | unrelated =>
      exact absurd (Or.inl part) (not_relates_of_check tidyFirst.ascends tidySecond.ascends found)

/-- Strengthening is found exactly if one literal is flipped. -/
theorem check_eq_strengthens_iff (tidyFirst : Tidy first) (tidySecond : Tidy second) :
    check first second = .strengthens literal ↔ Flips first second literal := by
  constructor
  · exact resolvable_of_check tidyFirst.present
  · intro flips
    cases found : check first second with
    | subsumes =>
      exact absurd (subset_of_check tidyFirst.present found) (flips.not_subset tidySecond)
    | strengthens other =>
      have flipsOther : Flips first second other := resolvable_of_check tidyFirst.present found
      rw [flips.unique flipsOther tidySecond]
    | unrelated =>
      have relates : Relates first second := (relates_iff tidyFirst).2 (.inr ⟨literal, flips⟩)
      exact absurd relates (not_relates_of_check tidyFirst.ascends tidySecond.ascends found)

/-- Clauses are unrelated if neither is contained, with a flip or without. -/
theorem check_eq_unrelated_iff (tidyFirst : Tidy first) (tidySecond : Tidy second) :
    check first second = .unrelated ↔
      ¬ first ⊆ second ∧ ∀ literal, ¬ Flips first second literal := by
  rw [← check_eq_subsumes_iff tidyFirst tidySecond]
  simp only [← check_eq_strengthens_iff tidyFirst tidySecond]
  cases check first second <;> simp

/-- A clause that contains another one can go. -/
theorem formulaHolds_pair_of_subset (part : first ⊆ second) :
    FormulaHolds values [first, second] ↔ FormulaHolds values [first] := by
  simp only [FormulaHolds, List.forall_mem_cons]
  constructor
  · rintro ⟨holds, _, rest⟩
    exact ⟨holds, rest⟩
  · rintro ⟨holds, rest⟩
    exact ⟨holds, holds.of_subset fun _ member => part member, rest⟩

/-- The complement of a flipped literal can go: where it was the literal that held, the
first clause holds by another one, and that one stays. -/
theorem formulaHolds_pair_of_flips (flips : Flips first second literal)
    (tidyFirst : Tidy first) :
    FormulaHolds values [first, second] ↔
      FormulaHolds values [first, second.erase literal.complement] := by
  have present := tidyFirst.present literal flips.1
  have kept : ∀ other, other ∈ second → other ≠ literal.complement →
      other ∈ second.erase literal.complement :=
    fun other inside different => (List.mem_erase_of_ne different).2 inside
  have opposed : literal.complement ∉ first := tidyFirst.unopposed literal flips.1
  simp only [FormulaHolds, List.forall_mem_cons]
  constructor
  · rintro ⟨holdsFirst, ⟨other, inside, holds⟩, rest⟩
    refine ⟨holdsFirst, ?_, rest⟩
    by_cases isFlipped : other = literal.complement
    · obtain ⟨reason, member, reasonHolds⟩ := holdsFirst
      have different : reason ≠ literal := by
        rintro rfl
        exact (Literal.holds_complement present).1 (isFlipped ▸ holds) reasonHolds
      have stays : reason ≠ literal.complement := by
        rintro rfl
        exact opposed member
      exact ⟨reason, kept reason (flips.2.2 reason member different) stays, reasonHolds⟩
    · exact ⟨other, kept other inside isFlipped, holds⟩
  · rintro ⟨holdsFirst, holds, rest⟩
    exact ⟨holdsFirst, holds.of_subset fun _ member => List.mem_of_mem_erase member, rest⟩

/-- The scan for subsumption is exact on every pair of stored clauses, and what it permits
keeps the models of the pair. -/
theorem check_exact (tidyFirst : Tidy first) (tidySecond : Tidy second) :
    (check first second = .subsumes ↔ first ⊆ second) ∧
    (∀ literal, check first second = .strengthens literal ↔
      literal ∈ first ∧ literal.complement ∈ second ∧
        ∀ other ∈ first, other ≠ literal → other ∈ second) ∧
    (check first second = .unrelated ↔ ¬ first ⊆ second ∧
      ¬ ∃ literal ∈ first, literal.complement ∈ second ∧
        ∀ other ∈ first, other ≠ literal → other ∈ second) ∧
    (check first second = .subsumes → ∀ values,
      FormulaHolds values [first, second] ↔ FormulaHolds values [first]) ∧
    ∀ literal, check first second = .strengthens literal → ∀ values,
      FormulaHolds values [first, second] ↔
        FormulaHolds values [first, second.erase literal.complement] := by
  refine ⟨check_eq_subsumes_iff tidyFirst tidySecond,
    fun literal => check_eq_strengthens_iff tidyFirst tidySecond, ?_, ?_, ?_⟩
  · rw [check_eq_unrelated_iff tidyFirst tidySecond, ← not_exists]
    rfl
  · intro found values
    exact formulaHolds_pair_of_subset ((check_eq_subsumes_iff tidyFirst tidySecond).1 found)
  · intro literal found values
    have flips := (check_eq_strengthens_iff tidyFirst tidySecond).1 found
    exact formulaHolds_pair_of_flips flips tidyFirst

/-- Of the clauses `1 -2` and `1 2 3`, of which the second can lose a literal. -/
theorem check_exact_flipped :
    let first := [1, -2].map Literal.ofInt
    let second := [1, 2, 3].map Literal.ofInt
    Tidy first ∧ Tidy second ∧ check first second = .strengthens (Literal.ofInt (-2)) ∧
      ∀ values, FormulaHolds values [first, second] ↔
        FormulaHolds values [first, [1, 3].map Literal.ofInt] := by
  have tidyFirst : Tidy ([1, -2].map Literal.ofInt) := by decide +kernel
  have tidySecond : Tidy ([1, 2, 3].map Literal.ofInt) := by decide +kernel
  obtain ⟨_, strengthens, _, _, models⟩ := check_exact tidyFirst tidySecond
  have found := (strengthens (Literal.ofInt (-2))).2 (by decide +kernel)
  exact ⟨tidyFirst, tidySecond, found, models _ found⟩

end Subsumption

end CnfSimplifier
