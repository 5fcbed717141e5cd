import CnfSimplifier.Proofs.ComponentTurns

/-!
# Every component is found once

A component leaves the stack when it is found, and what was met and is not on the stack is
not met again. So no literal is in two of the components found, and the search answers with
the classes of at least two literals that reach each other, each of them once. It gives
up only where the steps are used up.
-/
namespace CnfSimplifier

namespace ComponentSearch

variable {graph : Implications} {interrupted : Bool} {search : ComponentSearch}

/-! ## Giving up -/

theorem spend_ends {failed : Error → ComponentSearch → Prop} : (spend interrupted).Ends search
    (fun goOn after => goOn = false → after.budget.isExhausted = true) failed :=
  .of_done rfl Budget.isExhausted_of_spend

/-- The walk gives up only if the budget is exhausted. -/
theorem walk_gives_up (fuel : Nat) (stack : List (Literal × List Literal)) :
    (walk graph interrupted fuel stack).Ends search
      (fun finished after => finished = false → after.budget.isExhausted = true)
      fun _ _ => True := by
  induction fuel generalizing search stack with
  | zero => exact .stop
  | succ fuel ih =>
    rcases stack with _ | ⟨⟨literal, _ | ⟨next, others⟩⟩, rest⟩
    · exact .pure nofun
    · have onward : ∀ search : ComponentSearch, (do
          if (← lowOf literal) = (← numberOf literal) then close literal
          walk graph interrupted fuel rest).Ends search (fun finished after =>
            finished = false → after.budget.isExhausted = true) fun _ _ => True := by
        intro search
        refine Run.Ends.trivial.bind fun _ _ _ => Run.Ends.trivial.bind fun _ _ _ => ?_
        split
        · exact Run.Ends.trivial.bind fun _ _ _ => ih rest
        · exact ih rest
      unfold walk
      rcases rest with _ | ⟨⟨parent, _⟩, _⟩
      · exact onward search
      · refine Run.Ends.trivial.bind fun _ _ _ => Run.Ends.trivial.bind fun _ _ _ => ?_
        exact onward _
    · unfold walk
      refine spend_ends.bind fun goOn after exhausted => ?_
      split
      swap
      next refused => exact .pure fun _ => exhausted (by simpa using refused)
      refine Run.Ends.trivial.bind fun number _ _ => ?_
      split
      · exact Run.Ends.trivial.bind fun _ _ _ => Run.Ends.trivial.bind fun _ _ _ => ih _
      · refine Run.Ends.trivial.bind fun pending _ _ => ?_
        split
        · exact Run.Ends.trivial.bind fun _ _ _ => ih _
        · exact ih _

/-- The search gives up only if the budget is exhausted. -/
theorem searchFrom_gives_up (literals : List Literal) :
    (searchFrom graph interrupted literals).Ends search
      (fun finished after => finished = false → after.budget.isExhausted = true)
      fun _ _ => True := by
  induction literals generalizing search with
  | nil => exact .pure nofun
  | cons literal rest ih =>
    unfold searchFrom
    refine Run.Ends.trivial.bind fun _ _ _ => Run.Ends.trivial.bind fun _ _ _ => ?_
    split
    · exact ih
    · refine Run.Ends.trivial.bind fun _ _ _ => (walk_gives_up _ _).bind fun finished _ exhausted => ?_
      split
      · exact ih
      · next gaveUp => exact .pure fun _ => exhausted (by simpa using gaveUp)

end ComponentSearch

namespace Implications

variable {graph : Implications} {interrupted : Bool} {budget : Budget}

/-- There is no answer only if the steps are used up. -/
theorem components_gives_up : (graph.components interrupted).Ends budget
    (fun found after => found = none → after.isExhausted = true) fun _ _ => True := by
  have ends : (ComponentSearch.searchFrom graph interrupted (allLiterals graph.numVars)).Ends
      (ComponentSearch.start (2 * (graph.numVars + 1)) budget) _ _ :=
    ComponentSearch.searchFrom_gives_up _
  unfold Run.Ends at ends ⊢
  unfold components
  dsimp only
  split at ends
  next finished search ended =>
    rw [ended]
    cases finished with
    | true => exact nofun
    | false => exact fun _ => ends rfl
  next cause search ended =>
    rw [ended]
    trivial
  next why ended =>
    rw [ended]
    trivial

/-! ## The classes -/

/-- The lists are the classes of literals that reach each other, those of at least two
literals, each of them once. -/
structure Classes (graph : Implications) (found : List (List Literal)) : Prop where
  large : ∀ members ∈ found, 1 < members.length
  nodup : ∀ members ∈ found, members.Nodup
  full : ∀ members ∈ found, ∀ a ∈ members, ∀ b, b ∈ members ↔ Equivalent graph.Edge a b
  apart : found.Pairwise List.Disjoint
  together : ∀ a b, 0 < a.var → a.var ≤ graph.numVars → a ≠ b →
    (Equivalent graph.Edge a b ↔ ∃ members ∈ found, a ∈ members ∧ b ∈ members)

/-- The components of a graph whose search is at its end are its classes. -/
theorem Components.classes {found : List (List Literal)} (components : graph.Components found)
    (apart : found.Pairwise List.Disjoint) : graph.Classes found where
  large := components.large
  nodup members isFound := (components.component members isFound).nodup
  full members isFound a inside b := by
    have component := components.component members isFound
    refine ⟨fun member => ?_, fun equivalent => component.full a inside b equivalent.1 equivalent.2⟩
    exact ⟨component.reaches a inside b member, component.reaches b member a inside⟩
  apart := apart
  together a b positive inRange different := by
    constructor
    · intro equivalent
      obtain ⟨members, isFound, inside⟩ :=
        components.complete a b positive inRange different equivalent
      have component := components.component members isFound
      exact ⟨members, isFound, inside, component.full a inside b equivalent.1 equivalent.2⟩
    · rintro ⟨members, isFound, inA, inB⟩
      have component := components.component members isFound
      exact ⟨component.reaches a inA b inB, component.reaches b inB a inA⟩

/-- The search for components comes to an end. It answers with the classes of at least two
literals that reach each other, each of them once, unless the steps are used up. -/
theorem components_classes (full : graph.Full) : (graph.components interrupted).Returns budget
    fun found after => (found = none → after.isExhausted = true) ∧
      ∀ components, found = some components → graph.Classes components := by
  refine (((components_returns full).and_ends components_gives_up).and_ends
    components_searched).imp fun found after held => ?_
  obtain ⟨⟨components, exhausted⟩, searched⟩ := held
  refine ⟨exhausted, fun lists isFound => (components lists isFound).classes ?_⟩
  obtain ⟨search, rfl, searched, _⟩ := searched lists isFound
  exact searched.apart

/-- Three literals that imply each other, their complements, and a literal apart. -/
theorem components_classes_cycle :
    ∃ (graph : Implications) (budget after : Budget) (components : List (List Literal)),
      graph.Full ∧ graph.components false budget = .done (some components) after ∧
      components.map (List.map Literal.toInt) = [[3, 2, 1], [-2, -3, -1]] ∧
      graph.Classes components := by
  obtain ⟨graph, random, built, answer, after, ended, found⟩ :
      (build 4 [(.ofVar 1 false, .ofVar 2 true), (.ofVar 2 false, .ofVar 3 true),
        (.ofVar 3 false, .ofVar 1 true), (.ofVar 3 false, .ofVar 4 true)]).Returns (.ofSeed 1)
        fun graph _ => (graph.components false).Returns { limit := 100 } fun answer _ =>
          answer.map (List.map (List.map Literal.toInt)) = some [[3, 2, 1], [-2, -3, -1]] := by
    decide +kernel
  obtain ⟨components, rfl, listed⟩ := Option.map_eq_some_iff.1 found
  obtain ⟨_, _, again, full⟩ : (build 4 [(.ofVar 1 false, .ofVar 2 true),
      (.ofVar 2 false, .ofVar 3 true), (.ofVar 3 false, .ofVar 1 true),
      (.ofVar 3 false, .ofVar 4 true)]).Returns (.ofSeed 1) _ :=
    build_returns (by decide) (by decide)
  cases built.symm.trans again
  obtain ⟨_, _, answered, _, classes⟩ :
      (graph.components false).Returns { limit := 100 } _ := components_classes full
  cases ended.symm.trans answered
  exact ⟨graph, { limit := 100 }, after, components, full, ended, listed, classes components rfl⟩

end Implications

end CnfSimplifier
