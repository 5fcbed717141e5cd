/-!
# Ascending lists

Sets are kept as ascending lists. Sorting brings equal items side by side, and
then each of them is kept once. Items between which the order does not decide
keep their places.
-/
namespace CnfSimplifier

section Sorting

variable {α : Type} {before : α → α → Bool} {item : α}

/-- Put an item in front of the first one that it may stand before. -/
def insertBy (before : α → α → Bool) (item : α) : List α → List α
  | [] => [item]
  | first :: rest =>
    if before item first then item :: first :: rest else first :: insertBy before item rest

/-- The items in order. -/
def sortBy (before : α → α → Bool) : List α → List α
  | [] => []
  | item :: rest => insertBy before item (sortBy before rest)

theorem insertBy_perm (items : List α) : (insertBy before item items).Perm (item :: items) := by
  induction items with
  | nil => exact .refl _
  | cons first rest ih =>
    unfold insertBy
    split
    · exact .refl _
    · exact (ih.cons first).trans (.swap item first rest)

/-- Sorting moves items and does nothing else. -/
theorem sortBy_perm (items : List α) : (sortBy before items).Perm items := by
  induction items with
  | nil => exact .refl _
  | cons first rest ih => exact (insertBy_perm _).trans (ih.cons first)

theorem mem_sortBy {items : List α} : item ∈ sortBy before items ↔ item ∈ items :=
  (sortBy_perm items).mem_iff

/-- An ordered list stays ordered when an entry is put into its place. -/
theorem pairwise_insertBy
    (trans : ∀ a b c, before a b = true → before b c = true → before a c = true)
    (total : ∀ a b, (before a b || before b a) = true) {items : List α}
    (ordered : items.Pairwise fun a b => before a b = true) :
    (insertBy before item items).Pairwise fun a b => before a b = true := by
  induction items with
  | nil => exact List.pairwise_singleton _ _
  | cons first rest ih =>
    obtain ⟨least, orderedRest⟩ := List.pairwise_cons.1 ordered
    unfold insertBy
    split
    next isLess =>
      refine List.pairwise_cons.2 ⟨fun other member => ?_, ordered⟩
      rcases List.mem_cons.1 member with rfl | later
      · exact isLess
      · exact trans _ _ _ isLess (least other later)
    next notLess =>
      have below : before first item = true := by
        simpa [Bool.eq_false_iff.2 notLess] using total item first
      refine List.pairwise_cons.2 ⟨fun other member => ?_, ih orderedRest⟩
      rcases List.mem_cons.1 ((insertBy_perm rest).mem_iff.1 member) with rfl | later
      · exact below
      · exact least other later

/-- Sorting puts the items in order. -/
theorem pairwise_sortBy
    (trans : ∀ a b c, before a b = true → before b c = true → before a c = true)
    (total : ∀ a b, (before a b || before b a) = true) (items : List α) :
    (sortBy before items).Pairwise fun a b => before a b = true := by
  induction items with
  | nil => exact .nil
  | cons first rest ih => exact pairwise_insertBy trans total ih

/-- Items that are in order stay as they are. -/
theorem sortBy_of_pairwise {items : List α}
    (ordered : items.Pairwise fun a b => before a b = true) : sortBy before items = items := by
  induction items with
  | nil => rfl
  | cons first rest ih =>
    obtain ⟨least, orderedRest⟩ := List.pairwise_cons.1 ordered
    rw [sortBy, ih orderedRest]
    cases rest with
    | nil => rfl
    | cons second others => rw [insertBy, if_pos (least second List.mem_cons_self)]

end Sorting

/-- Drop an item that is followed by itself. -/
def dropRepeats {α : Type} [DecidableEq α] : List α → List α
  | [] => []
  | [a] => [a]
  | a :: b :: rest => if a = b then dropRepeats (b :: rest) else a :: dropRepeats (b :: rest)

theorem mem_dropRepeats {α : Type} [DecidableEq α] {item : α} (items : List α) :
    item ∈ dropRepeats items ↔ item ∈ items := by
  fun_induction dropRepeats items with
  | case1 => simp
  | case2 => simp
  | case3 a rest ih => simp [ih]
  | case4 a b rest different ih => simp [ih]

/-- Dropping repetitions leaves out items and keeps the order. -/
theorem dropRepeats_sublist {α : Type} [DecidableEq α] (items : List α) :
    (dropRepeats items).Sublist items := by
  fun_induction dropRepeats items with
  | case1 => exact .slnil
  | case2 => exact .refl _
  | case3 a rest ih => exact ih.cons a
  | case4 a b rest different ih => exact ih.cons_cons a

/-- The numbers of a list in ascending order, each once. -/
def sortedNumbers (numbers : List Nat) : List Nat :=
  dropRepeats (sortBy (fun a b => decide (a ≤ b)) numbers)

theorem mem_sortedNumbers {number : Nat} {numbers : List Nat} :
    number ∈ sortedNumbers numbers ↔ number ∈ numbers := by
  rw [sortedNumbers, mem_dropRepeats, mem_sortBy]

end CnfSimplifier
