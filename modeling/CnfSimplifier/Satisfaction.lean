import CnfSimplifier.Clause
import CnfSimplifier.Literal.Lemmas

/-!
# Satisfaction

What formulas mean. An assignment gives every variable a value; a clause holds if
one of its literals does, and a formula if all its clauses do. Bringing a clause
into ascending order keeps its meaning, and a clause with two complementary
neighbours holds under every assignment.
-/
namespace CnfSimplifier

/-- A value for every variable. -/
abbrev Assignment := Nat → Bool

/-- A literal holds if its variable has the value of its sign. -/
def Literal.Holds (values : Assignment) (literal : Literal) : Prop :=
  values literal.var = literal.isPositive

instance (values : Assignment) (literal : Literal) : Decidable (literal.Holds values) :=
  inferInstanceAs (Decidable (_ = _))

/-- A clause holds if one of its literals holds. -/
def ClauseHolds (values : Assignment) (literals : List Literal) : Prop :=
  ∃ literal ∈ literals, literal.Holds values

/-- A formula holds if all its clauses hold. -/
def FormulaHolds (values : Assignment) (clauses : List (List Literal)) : Prop :=
  ∀ literals ∈ clauses, ClauseHolds values literals

/-- Exactly one of a literal and its complement holds. -/
theorem Literal.holds_complement {values : Assignment} {literal : Literal}
    (present : 0 < literal.var) :
    literal.complement.Holds values ↔ ¬ literal.Holds values := by
  unfold Holds
  rw [var_complement present, isPositive_complement present]
  cases values literal.var <;> cases literal.isPositive <;> simp

/-- The meaning of a clause depends on its members only. -/
theorem clauseHolds_iff_of_mem {values : Assignment} {first second : List Literal}
    (same : ∀ literal, literal ∈ first ↔ literal ∈ second) :
    ClauseHolds values first ↔ ClauseHolds values second := by
  constructor
  · rintro ⟨literal, member, holds⟩
    exact ⟨literal, (same literal).1 member, holds⟩
  · rintro ⟨literal, member, holds⟩
    exact ⟨literal, (same literal).2 member, holds⟩

/-- A clause that contains a clause that holds holds. -/
theorem ClauseHolds.of_subset {values : Assignment} {first second : List Literal}
    (holds : ClauseHolds values first) (subset : ∀ literal ∈ first, literal ∈ second) :
    ClauseHolds values second := by
  obtain ⟨literal, member, literalHolds⟩ := holds
  exact ⟨literal, subset literal member, literalHolds⟩

/-- Bringing a clause into ascending order keeps its meaning. -/
theorem clauseHolds_sortedLiterals {values : Assignment} {literals : List Literal} :
    ClauseHolds values (sortedLiterals literals) ↔ ClauseHolds values literals :=
  clauseHolds_iff_of_mem fun _ => mem_sortedLiterals

/-- Complementary neighbours are a literal and its complement among the members. -/
theorem exists_complement_of_hasComplements {literals : List Literal}
    (found : hasComplements literals = true) :
    ∃ literal ∈ literals, literal.complement ∈ literals := by
  fun_induction hasComplements literals with
  | case1 a b rest ih =>
    rcases Bool.or_eq_true_iff.1 found with neighbours | later
    · refine ⟨b, by simp, ?_⟩
      rw [← eq_of_beq neighbours]
      simp
    · obtain ⟨literal, member, complement⟩ := ih later
      exact ⟨literal, List.mem_cons_of_mem _ member, List.mem_cons_of_mem _ complement⟩
  | case2 => simp at found

/-- Of two complements the one with the smaller code is the positive one. -/
theorem Literal.code_of_complement_lt {literal : Literal} (present : 0 < literal.var)
    (below : literal < literal.complement) :
    literal.complement.code.toNat = literal.code.toNat + 1 := by
  have sameVar := Literal.var_complement present
  have order : literal.code.toNat < literal.complement.code.toNat := below
  simp only [Literal.var] at sameVar
  omega

/-- In a strictly ascending list complements are neighbours. -/
theorem hasComplements_of_mem {literals : List Literal} (sorted : literals.Pairwise (· < ·))
    {literal : Literal} (present : 0 < literal.var) (member : literal ∈ literals)
    (complement : literal.complement ∈ literals) (below : literal < literal.complement) :
    hasComplements literals = true := by
  induction literals with
  | nil => cases member
  | cons first rest ih =>
    obtain ⟨smallest, sortedRest⟩ := List.pairwise_cons.1 sorted
    have inRest : literal.complement ∈ rest := by
      rcases List.mem_cons.1 complement with isFirst | later
      · rcases List.mem_cons.1 member with same | later
        · exact absurd (isFirst.trans same.symm) (Literal.complement_ne present)
        · have above := smallest literal later
          rw [← isFirst] at above
          exact absurd above (UInt32.not_lt.2 (UInt32.le_of_lt below))
      · exact later
    rcases List.mem_cons.1 member with isFirst | later
    · subst isFirst
      cases rest with
      | nil => cases inRest
      | cons second others =>
        -- Nothing lies between a literal and its complement.
        have isSecond : literal.complement = second := by
          rcases List.mem_cons.1 inRest with same | later
          · exact same
          · have afterFirst : literal.code.toNat < second.code.toNat :=
              smallest second List.mem_cons_self
            have beforeLast : second.code.toNat < literal.complement.code.toNat :=
              (List.pairwise_cons.1 sortedRest).1 _ later
            have gap := Literal.code_of_complement_lt present below
            omega
        subst isSecond
        simp [hasComplements, Literal.complement_complement present]
    · cases rest with
      | nil => cases later
      | cons second others =>
        have found := ih sortedRest later inRest
        simp [hasComplements, found]

/-- A strictly ascending clause without complementary neighbours has no complements. -/
theorem complement_not_mem {literals : List Literal} (sorted : literals.Pairwise (· < ·))
    (present : ∀ literal ∈ literals, 0 < literal.var) (plain : hasComplements literals = false) :
    ∀ literal ∈ literals, literal.complement ∉ literals := by
  intro literal member complement
  have inside : 0 < literal.complement.var := present _ complement
  rcases Literal.le_total literal literal.complement with below | above
  · have strict := Literal.lt_of_le_of_ne below (Literal.complement_ne (present literal member)).symm
    have found := hasComplements_of_mem sorted (present literal member) member complement strict
    rw [plain] at found
    cases found
  · have strict := Literal.lt_of_le_of_ne above (Literal.complement_ne (present literal member))
    have back := Literal.complement_complement (present literal member)
    have found := hasComplements_of_mem sorted inside complement (back.symm ▸ member)
      (by rw [back]; exact strict)
    rw [plain] at found
    cases found

/-- A clause over variables with complementary neighbours holds under every
assignment. -/
theorem clauseHolds_of_hasComplements {values : Assignment} {literals : List Literal}
    (present : ∀ literal ∈ literals, 0 < literal.var)
    (found : hasComplements literals = true) : ClauseHolds values literals := by
  obtain ⟨literal, member, complement⟩ := exists_complement_of_hasComplements found
  by_cases holds : literal.Holds values
  · exact ⟨literal, member, holds⟩
  · exact ⟨_, complement, (Literal.holds_complement (present literal member)).2 holds⟩

end CnfSimplifier
