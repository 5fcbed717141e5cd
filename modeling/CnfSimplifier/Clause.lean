import CnfSimplifier.Ascending
import CnfSimplifier.Literal
import CnfSimplifier.Flags

/-!
# Clauses

A clause is a set of literals, kept as the strictly ascending list of its
members, with marks. The order is part of the type: clauses are made by sorting
and dropping repetitions, and afterwards literals are only ever taken out.
-/
namespace CnfSimplifier

/-- Dropping repetitions from an ascending list makes it strictly ascending. -/
theorem pairwise_dropRepeats {literals : List Literal}
    (ascending : literals.Pairwise (· ≤ ·)) : (dropRepeats literals).Pairwise (· < ·) := by
  fun_induction dropRepeats literals with
  | case1 => exact .nil
  | case2 => simp
  | case3 a rest ih => exact ih (List.pairwise_cons.1 ascending).2
  | case4 a b rest different ih =>
    have parts := List.pairwise_cons.1 ascending
    refine List.pairwise_cons.2 ⟨fun l member => ?_, ih parts.2⟩
    have inTail := (mem_dropRepeats _).1 member
    have first : a < b :=
      Literal.lt_of_le_of_ne (parts.1 b List.mem_cons_self) different
    rcases List.mem_cons.1 inTail with rfl | later
    · exact first
    · exact Literal.lt_of_lt_of_le first ((List.pairwise_cons.1 parts.2).1 l later)

/-- The members of a list of literals in ascending order, each once. -/
def sortedLiterals (literals : List Literal) : List Literal :=
  dropRepeats (sortBy (fun a b => decide (a ≤ b)) literals)

theorem mem_sortedLiterals {l : Literal} {literals : List Literal} :
    l ∈ sortedLiterals literals ↔ l ∈ literals := by
  rw [sortedLiterals, mem_dropRepeats, mem_sortBy]

/-- Sorted literals ascend strictly, so none comes twice. -/
theorem pairwise_sortedLiterals (literals : List Literal) :
    (sortedLiterals literals).Pairwise (· < ·) := by
  apply pairwise_dropRepeats
  have ordered : (sortBy (fun a b => decide (a ≤ b)) literals).Pairwise
      (fun a b => decide (a ≤ b) = true) :=
    pairwise_sortBy
      (fun a b c first second => by
        simp only [decide_eq_true_eq] at *
        exact Literal.le_trans first second)
      (fun a b => by
        simp only [Bool.or_eq_true, decide_eq_true_eq]
        exact Literal.le_total a b)
      literals
  exact ordered.imp fun h => by simpa using h

/-- A strictly ascending list has nothing to drop. -/
theorem dropRepeats_of_pairwise {literals : List Literal} (sorted : literals.Pairwise (· < ·)) :
    dropRepeats literals = literals := by
  fun_induction dropRepeats literals with
  | case1 => rfl
  | case2 => rfl
  | case3 a rest ih =>
    have below := (List.pairwise_cons.1 sorted).1 a List.mem_cons_self
    exact absurd below (UInt32.lt_irrefl a.code)
  | case4 a b rest different ih => rw [ih (List.pairwise_cons.1 sorted).2]

/-- A strictly ascending list is left as it is. -/
theorem sortedLiterals_of_pairwise {literals : List Literal} (sorted : literals.Pairwise (· < ·)) :
    sortedLiterals literals = literals := by
  have ordered : literals.Pairwise (fun a b => decide (a ≤ b) = true) :=
    sorted.imp fun {a b} below => decide_eq_true (UInt32.le_of_lt below)
  unfold sortedLiterals
  rw [sortBy_of_pairwise ordered, dropRepeats_of_pairwise sorted]

/-- Whether two neighbours of a list are complements. In an ascending list this
says that the clause holds under every assignment. -/
def hasComplements : List Literal → Bool
  | a :: b :: rest => a == b.complement || hasComplements (b :: rest)
  | _ => false

/-- A stored clause. -/
structure Clause where
  literals : List Literal
  sorted : literals.Pairwise (· < ·)
  flags : ClauseFlags

namespace Clause

/-- The clause of some literals, to be tried for subsumption and strengthening. -/
def ofLiterals (literals : List Literal) (redundant : Bool) : Clause where
  literals := sortedLiterals literals
  sorted := pairwise_sortedLiterals literals
  flags := { redundant := redundant, subsume := true, strengthen := true }

/-- The number of literals. -/
def size (clause : Clause) : Nat := clause.literals.length

/-- Whether a clause was deleted. -/
def isDead (clause : Clause) : Bool := clause.flags.dead

/-- Whether a clause may go without a record. -/
def isRedundant (clause : Clause) : Bool := clause.flags.redundant

/-- Whether a clause contains a literal. -/
def contains (clause : Clause) (literal : Literal) : Bool := clause.literals.contains literal

/-- The literal of a variable in a clause: the first one at or above the positive
literal, if it belongs there. -/
def literalOf (clause : Clause) (name : Nat) : Option Literal :=
  let positive := Literal.ofVar name true
  (clause.literals.find? (positive ≤ ·)).filter fun l => l == positive || l.var == name

/-- Take a literal out. -/
def erase (clause : Clause) (literal : Literal) : Clause where
  literals := clause.literals.erase literal
  sorted := clause.sorted.sublist List.erase_sublist
  flags := clause.flags

/-- The written form of a clause in messages, such as `{[1, -3], redundant}`. -/
def text (clause : Clause) : String :=
  "\x7b" ++ Literal.listText clause.literals ++
    (if clause.flags.redundant then ", redundant" else "") ++
    (if clause.flags.dead then ", dead" else "") ++ "\x7d"

end Clause

end CnfSimplifier
