import CnfSimplifier.Equivalence
import CnfSimplifier.Proofs.Component
import Mathlib.Data.List.Nodup
import Mathlib.Order.WellFounded

/-!
# Representatives

Of the literals that are equivalent to a literal one stands for all: the least of those
with a protected variable, or the least of all if no variable is protected. So it depends
on the graph and on the protected variables alone, not on the order in which components
are found.

The graph of binary clauses is skew: with an edge it has the edge between the
complements, the other way round. As long as no literal is equivalent to its complement,
the order of literals is that of their variables within a component, and the complement
of a literal is represented by the complement of its representative.
-/
namespace CnfSimplifier

/-- Every edge has a counterpart between the complements. -/
structure Skew (edge : Literal → Literal → Prop) : Prop where
  left : ∀ a b, edge a b → 0 < a.var
  right : ∀ a b, edge a b → 0 < b.var
  contrapose : ∀ a b, edge a b → edge b.complement a.complement

namespace Skew

variable {edge : Literal → Literal → Prop} {a b : Literal}

theorem path (skew : Skew edge) (path : Relation.ReflTransGen edge a b) :
    Relation.ReflTransGen edge b.complement a.complement := by
  induction path with
  | refl => exact .refl
  | tail _ last ih => exact .head (skew.contrapose _ _ last) ih

theorem equivalent (skew : Skew edge) (equivalent : Equivalent edge a b) :
    Equivalent edge a.complement b.complement :=
  ⟨skew.path equivalent.2, skew.path equivalent.1⟩

/-- A literal equivalent to one of a variable is one of a variable. -/
theorem positive (skew : Skew edge) (present : 0 < a.var) (equivalent : Equivalent edge a b) :
    0 < b.var := by
  rcases Relation.ReflTransGen.cases_tail equivalent.1 with same | ⟨_, _, last⟩
  · exact same ▸ present
  · exact skew.right _ _ last

end Skew

/-- The literal that stands for a literal: of those equivalent to it the least with a
protected variable, or the least if no variable is protected. -/
structure Represents (isFrozen : Nat → Prop) (edge : Literal → Literal → Prop)
    (literal stands : Literal) : Prop where
  equivalent : Equivalent edge literal stands
  frozen : ∀ other, Equivalent edge literal other → isFrozen other.var →
    isFrozen stands.var ∧ stands ≤ other
  least : (∀ other, Equivalent edge literal other → ¬ isFrozen other.var) →
    ∀ other, Equivalent edge literal other → stands ≤ other

namespace Represents

variable {isFrozen : Nat → Prop} {edge : Literal → Literal → Prop} {a b stands other : Literal}

/-- Every literal has a representative. -/
theorem exists_stands (isFrozen : Nat → Prop) (edge : Literal → Literal → Prop) (literal : Literal) :
    ∃ stands, Represents isFrozen edge literal stands := by
  -- A set of literals with a member has a least one.
  have least : ∀ set : Literal → Prop, (∃ member, set member) →
      ∃ first, set first ∧ ∀ member, set member → first ≤ member := by
    intro set nonempty
    obtain ⟨first, inside, minimal⟩ :=
      (InvImage.wf (fun literal : Literal => literal.code.toNat) Nat.lt_wfRel.wf).has_min
        {member | set member} nonempty
    exact ⟨first, inside, fun member isMember => Nat.le_of_not_lt (minimal member isMember)⟩
  by_cases some_ : ∃ other, Equivalent edge literal other ∧ isFrozen other.var
  · obtain ⟨first, ⟨equivalent, frozen⟩, below⟩ := least _ some_
    exact ⟨first, equivalent, fun other same also => ⟨frozen, below other ⟨same, also⟩⟩,
      fun none => absurd frozen (none first equivalent)⟩
  · obtain ⟨first, equivalent, below⟩ := least (Equivalent edge literal) ⟨literal, .refl _⟩
    exact ⟨first, equivalent, fun other same frozen => absurd ⟨other, same, frozen⟩ some_,
      fun _ => below⟩

/-- There is one representative only. -/
theorem unique (first : Represents isFrozen edge a stands) (second : Represents isFrozen edge a other) :
    stands = other := by
  by_cases some_ : ∃ literal, Equivalent edge a literal ∧ isFrozen literal.var
  · obtain ⟨literal, equivalent, isFrozen⟩ := some_
    have firstFrozen := (first.frozen literal equivalent isFrozen).1
    have secondFrozen := (second.frozen literal equivalent isFrozen).1
    exact Literal.le_antisymm (first.frozen other second.equivalent secondFrozen).2
      (second.frozen stands first.equivalent firstFrozen).2
  · push Not at some_
    exact Literal.le_antisymm (first.least some_ other second.equivalent)
      (second.least some_ stands first.equivalent)

/-- Complements have complementary representatives, if no complementary literals are
equivalent. -/
theorem complement (represents : Represents isFrozen edge a stands) (skew : Skew edge)
    (present : 0 < a.var) (proper : ∀ other, Equivalent edge a other →
      ¬ Equivalent edge a other.complement) :
    Represents isFrozen edge a.complement stands.complement := by
  have presentStands := skew.positive present represents.equivalent
  have presentComplement : 0 < a.complement.var := by rwa [Literal.var_complement present]
  -- What is equivalent to the complement is the complement of what is equivalent.
  have back : ∀ other, Equivalent edge a.complement other →
      0 < other.var ∧ Equivalent edge a other.complement := by
    intro other equivalent
    have opposite := skew.equivalent equivalent
    rw [Literal.complement_complement present] at opposite
    exact ⟨skew.positive presentComplement equivalent, opposite⟩
  have mirrored : ∀ other, Equivalent edge a.complement other → stands ≤ other.complement →
      stands.complement ≤ other := by
    intro other equivalent below
    obtain ⟨presentOther, opposite⟩ := back other equivalent
    by_cases same : stands.var = other.var
    · rcases Literal.eq_or_eq_complement presentOther same with rfl | isComplement
      · exact absurd opposite (proper _ represents.equivalent)
      · rw [isComplement, Literal.complement_complement presentOther]
        exact Nat.le_refl _
    · apply Literal.le_of_var_lt
      have := Literal.var_le_of_le below
      rw [Literal.var_complement presentOther] at this
      rw [Literal.var_complement presentStands]
      omega
  constructor
  case equivalent => exact skew.equivalent represents.equivalent
  case frozen =>
    intro other equivalent frozen
    obtain ⟨presentOther, opposite⟩ := back other equivalent
    rw [← Literal.var_complement presentOther] at frozen
    obtain ⟨standsFrozen, below⟩ := represents.frozen _ opposite frozen
    rw [Literal.var_complement presentStands]
    exact ⟨standsFrozen, mirrored other equivalent below⟩
  case least =>
    intro none other equivalent
    refine mirrored other equivalent (represents.least (fun literal same frozen => ?_) _
      (back other equivalent).2)
    refine none _ (skew.equivalent same) ?_
    rwa [Literal.var_complement (skew.positive present same)]

end Represents

/-! ## The representative of a component -/

namespace Equivalence

variable {engine : Engine} {members : List Literal} {literal : Literal}

/-- The first protected literal of an ascending list is the least one. -/
theorem frozen_of_firstFrozen? (ascending : members.Pairwise (· < ·))
    (found : firstFrozen? engine members = some (some literal)) :
    literal ∈ members ∧ engine.trail.Frozen literal.var ∧
      ∀ other ∈ members, engine.trail.Frozen other.var → literal ≤ other := by
  induction members with
  | nil => simp [firstFrozen?] at found
  | cons member rest ih =>
    obtain ⟨below, ascendingRest⟩ := List.pairwise_cons.1 ascending
    unfold firstFrozen? at found
    obtain ⟨frozen, looked, others⟩ := Option.bind_eq_some_iff.1 found
    obtain ⟨flags, known, rfl⟩ := Option.map_eq_some_iff.1 looked
    cases frozen : flags.frozen with
    | true =>
      obtain rfl : member = literal := by simpa [frozen] using others
      refine ⟨List.mem_cons_self, ⟨flags, known, frozen⟩, List.forall_mem_cons.2
        ⟨fun _ => Nat.le_refl _, fun other inRest _ => Nat.le_of_lt (below other inRest)⟩⟩
    | false =>
      obtain ⟨inRest, isFrozen, least⟩ := ih ascendingRest (by simpa [frozen] using others)
      refine ⟨List.mem_cons_of_mem _ inRest, isFrozen, List.forall_mem_cons.2 ⟨?_, least⟩⟩
      rintro ⟨again, lookedUp, protected_⟩
      rw [known, Option.some.injEq] at lookedUp
      rw [← lookedUp, frozen] at protected_
      cases protected_

/-- If no frozen member is found there is none. -/
theorem not_frozen_of_firstFrozen? (found : firstFrozen? engine members = some none) :
    ∀ other ∈ members, ¬ engine.trail.Frozen other.var := by
  induction members with
  | nil => simp
  | cons member rest ih =>
    unfold firstFrozen? at found
    obtain ⟨frozen, looked, others⟩ := Option.bind_eq_some_iff.1 found
    obtain ⟨flags, known, rfl⟩ := Option.map_eq_some_iff.1 looked
    cases frozen : flags.frozen with
    | true => simp [frozen] at others
    | false =>
      refine List.forall_mem_cons.2 ⟨?_, ih (by simpa [frozen] using others)⟩
      rintro ⟨again, lookedUp, protected_⟩
      rw [known, Option.some.injEq] at lookedUp
      rw [← lookedUp, frozen] at protected_
      cases protected_

/-- Literals of distinct variables are not complementary. -/
theorem complement_not_mem (distinct : members.Pairwise fun a b => a.var < b.var)
    (positive : ∀ b ∈ members, 0 < b.var) (inside : literal ∈ members) :
    literal.complement ∉ members := by
  intro opposite
  have vars : (members.map Literal.var).Nodup :=
    List.pairwise_map.2 (distinct.imp fun less => Nat.ne_of_lt less)
  exact Literal.complement_ne (positive literal inside) (List.inj_on_of_nodup_map vars
    opposite inside (Literal.var_complement (positive literal inside)))

/-- In a component without complementary pairs no complementary literals are equivalent. -/
theorem not_equivalent_complement {edge : Literal → Literal → Prop}
    (component : Component edge members) (proper : ∀ a ∈ members, a.complement ∉ members)
    (inside : literal ∈ members) :
    ∀ other, Equivalent edge literal other → ¬ Equivalent edge literal other.complement :=
  fun other equivalent opposite =>
    proper other (component.full literal inside other equivalent.1 equivalent.2)
      (component.full literal inside _ opposite.1 opposite.2)

/-- The literal that is chosen for a component stands for its members. -/
theorem represents_of_chosen {edge : Literal → Literal → Prop} {frozen : Option Literal}
    {least : Literal} {later : List Literal} (component : Component edge (least :: later))
    (ascending : (least :: later).Pairwise (· < ·))
    (found : firstFrozen? engine (least :: later) = some frozen) :
    frozen.getD least ∈ least :: later ∧ ∀ member ∈ least :: later,
      Represents engine.trail.Frozen edge member (frozen.getD least) := by
  have inside : ∀ member ∈ least :: later, ∀ other, Equivalent edge member other →
      other ∈ least :: later := fun member isMember other equivalent =>
    component.full member isMember other equivalent.1 equivalent.2
  have equivalent : ∀ member ∈ least :: later, ∀ other ∈ least :: later,
      Equivalent edge member other := fun member isMember other otherInside =>
    ⟨component.reaches _ isMember _ otherInside, component.reaches _ otherInside _ isMember⟩
  cases frozen with
  | some literal =>
    obtain ⟨isMember, isFrozen, below⟩ := frozen_of_firstFrozen? ascending found
    refine ⟨isMember, fun member inMembers => ⟨equivalent member inMembers literal isMember, ?_, ?_⟩⟩
    · exact fun other same also => ⟨isFrozen, below other (inside member inMembers other same) also⟩
    · exact fun none => absurd isFrozen (none literal (equivalent member inMembers literal isMember))
  | none =>
    have none := not_frozen_of_firstFrozen? found
    refine ⟨List.mem_cons_self, fun member inMembers =>
      ⟨equivalent member inMembers least List.mem_cons_self, ?_, ?_⟩⟩
    · exact fun other same also => absurd also (none other (inside member inMembers other same))
    · intro _ other same
      rcases List.mem_cons.1 (inside member inMembers other same) with rfl | inLater
      · exact Nat.le_refl _
      · exact Nat.le_of_lt ((List.pairwise_cons.1 ascending).1 other inLater)

end Equivalence

end CnfSimplifier
