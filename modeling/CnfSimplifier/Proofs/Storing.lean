import CnfSimplifier.Proofs.EngineOperations

/-!
# Storing clauses

A clause that is to be stored is first looked at under the root assignment. It may
hold anyway, or be falsified, or be left with one literal, which becomes a root
literal. Otherwise what is left of it is stored.

Whichever way it goes, afterwards the formula contains a part of the clause, unless
the clause has complementary literals.
-/
namespace CnfSimplifier

namespace Trail

variable {trail : Trail} {literal : Literal}

/-- A satisfied clause has a true literal. -/
theorem exists_true_of_satisfies? {literals : List Literal}
    (satisfied : trail.satisfies? literals = some true) :
    ∃ literal ∈ literals, trail.literalValue? literal = some (some true) := by
  induction literals with
  | nil => cases satisfied
  | cons first rest ih =>
    simp only [satisfies?, Option.bind_eq_bind, Option.bind_eq_some_iff] at satisfied
    obtain ⟨value, found, decided⟩ := satisfied
    split at decided
    next isTrue =>
      rw [isTrue] at found
      exact ⟨first, List.mem_cons_self, found⟩
    next =>
      obtain ⟨literal, member, holds⟩ := ih decided
      exact ⟨literal, List.mem_cons_of_mem _ member, holds⟩

/-- A clause that is not satisfied has no true literal. -/
theorem not_true_of_satisfies? {literals : List Literal}
    (unsatisfied : trail.satisfies? literals = some false) :
    ∀ literal ∈ literals, trail.literalValue? literal ≠ some (some true) := by
  induction literals with
  | nil => simp
  | cons first rest ih =>
    simp only [satisfies?, Option.bind_eq_bind, Option.bind_eq_some_iff] at unsatisfied
    obtain ⟨value, found, decided⟩ := unsatisfied
    split at decided
    next => cases decided
    next notTrue =>
      intro literal member
      rcases List.mem_cons.1 member with rfl | later
      · intro isTrue
        rw [isTrue, Option.some.injEq] at found
        exact notTrue found.symm
      · exact ih decided literal later

end Trail

namespace Engine

variable {scope : Scope} {engine after : Engine} {literal : Literal}
  {literals remaining : List Literal}

/-- What is left of a clause: the literals without a value. -/
theorem openLiterals?_spec {trail : Trail}
    (opened : openLiterals? trail literals = some remaining) :
    remaining.Sublist literals ∧
      (∀ literal ∈ remaining, trail.literalValue? literal = some none) ∧
      ∀ literal ∈ literals, literal ∉ remaining →
        ∃ value, trail.literalValue? literal = some (some value) := by
  induction literals generalizing remaining with
  | nil =>
    simp only [openLiterals?, Option.some.injEq] at opened
    subst opened
    simp
  | cons first rest ih =>
    simp only [openLiterals?, Option.bind_eq_bind, Option.bind_eq_some_iff, Option.pure_def,
      Option.some.injEq] at opened
    obtain ⟨value, found, others, openedRest, chosen⟩ := opened
    obtain ⟨below, isOpen, closed⟩ := ih openedRest
    cases value with
    | none =>
      simp only [Option.isNone_none, if_true] at chosen
      subst chosen
      refine ⟨below.cons_cons first, ?_, ?_⟩
      · intro literal member
        rcases List.mem_cons.1 member with rfl | later
        · exact found
        · exact isOpen literal later
      · intro literal member absent
        rcases List.mem_cons.1 member with rfl | later
        · exact absurd List.mem_cons_self absent
        · exact closed literal later fun inside => absent (List.mem_cons_of_mem _ inside)
    | some value =>
      simp only [Option.isNone_some, Bool.false_eq_true, if_false] at chosen
      subst chosen
      refine ⟨below.cons first, isOpen, ?_⟩
      intro literal member absent
      rcases List.mem_cons.1 member with rfl | later
      · exact ⟨value, found⟩
      · exact closed literal later absent

/-- How a clause stands under the root assignment. -/
structure Reduced (engine : Engine) (literals remaining : List Literal) : Prop where
  sorted : remaining.Pairwise (· < ·)
  subset : remaining ⊆ literals
  isOpen : ∀ literal ∈ remaining, ∀ other ∈ engine.trail.facts, other.var ≠ literal.var
  value : ∀ literal ∈ remaining, engine.trail.literalValue? literal = some none
  falsified : ∀ literal ∈ literals, literal ∉ remaining →
    literal.complement ∈ engine.trail.facts

/-- A clause holds only if what is left of it does, once the root literals hold. -/
theorem Reduced.clauseHolds_iff (reduced : Reduced engine literals remaining)
    (present : OverVars literals) {values : Assignment}
    (root : ∀ literal ∈ engine.trail.facts, literal.Holds values) :
    ClauseHolds values remaining ↔ ClauseHolds values literals := by
  refine ⟨fun holds => holds.of_subset reduced.subset, ?_⟩
  rintro ⟨literal, member, holds⟩
  by_cases inside : literal ∈ remaining
  · exact ⟨literal, inside, holds⟩
  · have falsified := root _ (reduced.falsified literal member inside)
    exact absurd holds ((Literal.holds_complement (present literal member)).1 falsified)

/-- The rest of storing a clause, once it is known what is left of it. -/
def storeRemaining (literals : List Literal) (redundant derived : Bool) :
    List Literal → Run Engine (Option Handle)
  | [] => Run.fail .emptyClause
  | [literal] => do
    assignUnit literal
    return none
  | remaining => do
    if derived || remaining.length < (sortedLiterals literals).length then
      prove (.added remaining)
    let handle ← insertClause remaining redundant
    let stored ← clause handle
    updateIndex fun index => index.add handle stored.literals
    touch
    return some handle

/-- How storing a clause ends: it holds anyway, it is out of range, or what is left
of it is stored. -/
theorem storeClause_ends {redundant derived : Bool} {done : Option Handle → Engine → Prop}
    {failed : Error → Engine → Prop} (sound : engine.trail.Sound)
    (outside : (∃ literal ∈ literals, engine.numVars < literal.var ∨ literal.var = 0) →
      failed .outOfRange engine)
    (tautology : OverVars literals → hasComplements (sortedLiterals literals) = true →
      done none engine) (satisfied : (∃ literal ∈ literals, literal ∈ engine.trail.facts) →
      done none engine)
    (rest : (∀ literal ∈ literals, 0 < literal.var ∧ literal.var ≤ engine.numVars) →
      hasComplements (sortedLiterals literals) = false → ∀ remaining,
      Reduced engine literals remaining →
      (storeRemaining literals redundant derived remaining).Ends engine done failed) :
    (storeClause literals redundant derived).Ends engine done failed := by
  unfold storeClause
  refine .step rfl ?_
  split
  next found =>
    refine .fail (outside ?_)
    obtain ⟨literal, member, wrong⟩ := List.any_eq_true.1 found
    refine ⟨literal, member, ?_⟩
    simpa using wrong
  next inRange =>
    have range : ∀ literal ∈ literals, 0 < literal.var ∧ literal.var ≤ engine.numVars := by
      intro literal member
      have fine : ¬ (engine.numVars < literal.var ∨ literal.var = 0) := by
        intro wrong
        apply inRange
        rw [List.any_eq_true]
        exact ⟨literal, member, by simpa using wrong⟩
      omega
    dsimp only
    split
    next complementary => exact .pure (tautology (fun l member => (range l member).1) complementary)
    next plain =>
      refine Run.Looks.access.bind fun isSatisfied looked => ?_
      cases isSatisfied with
      | true =>
        obtain ⟨literal, member, isTrue⟩ := Trail.exists_true_of_satisfies? looked
        rw [mem_sortedLiterals] at member
        exact .pure (satisfied
          ⟨literal, member, sound.agrees.mem_of_true (range literal member).1 isTrue⟩)
      | false =>
        refine Run.Looks.access.bind fun remaining opened => ?_
        have notTrue := Trail.not_true_of_satisfies? looked
        obtain ⟨below, isOpen, closed⟩ := openLiterals?_spec opened
        have inside : remaining ⊆ literals := fun literal member =>
          mem_sortedLiterals.1 (below.subset member)
        have reduced : Reduced engine literals remaining := by
          refine ⟨(pairwise_sortedLiterals literals).sublist below, inside, ?_, isOpen, ?_⟩
          · exact fun literal member =>
              Trail.open_of_none (isOpen literal member)
          · intro literal member absent
            obtain ⟨value, found⟩ := closed literal (mem_sortedLiterals.2 member) absent
            cases value with
            | true => exact absurd found (notTrue literal (mem_sortedLiterals.2 member))
            | false => exact sound.agrees.mem_of_false (range literal member).1 found
        have ends := rest range (Bool.eq_false_iff.2 plain) remaining reduced
        rcases remaining with _ | ⟨first, _ | ⟨second, others⟩⟩
        · exact ends
        · exact ends
        · exact ends

/-! ## Derived clauses -/

/-- Literals that are false at the root do not matter to propagation. -/
theorem Reduced.rup (reduced : Reduced engine literals remaining)
    (follows : Rup engine.picture.formula literals) : Rup engine.picture.formula remaining := by
  refine Conflicts.cut ?_ follows
  rintro _ ⟨literal, member, rfl⟩
  by_cases inside : literal ∈ remaining
  · exact .assumption (mem_negations inside)
  · refine .unit (Picture.mem_formula_of_root (reduced.falsified literal member inside))
      List.mem_cons_self fun other single different => ?_
    exact absurd (List.mem_singleton.1 single) different

/-- What is left of a clause has the form of a clause, if it has two literals. -/
theorem Reduced.admits [Realm] (reduced : Reduced engine literals remaining)
    (present : ∀ literal ∈ literals, engine.picture.Present literal.var)
    (plain : hasComplements (sortedLiterals literals) = false) (two : 2 ≤ remaining.length) :
    engine.picture.Admits remaining := by
  refine ⟨reduced.sorted, two, fun literal member => present literal (reduced.subset member), ?_⟩
  intro literal member complement
  refine complement_not_mem (pairwise_sortedLiterals literals) ?_ plain literal
    (mem_sortedLiterals.2 (reduced.subset member))
    (mem_sortedLiterals.2 (reduced.subset complement))
  exact fun other inside => (present other (mem_sortedLiterals.1 inside)).1

/-- The engine has its old clauses and perhaps more, over allowed literals. -/
structure Grows (engine : Engine) (allowed : Literal → Prop) (after : Engine) : Prop where
  older : ∀ handle clause, engine.arena.get? handle = some clause →
    after.arena.get? handle = some clause
  newer : ∀ handle clause, after.arena.get? handle = some clause →
    engine.arena.get? handle = some clause ∨ ∀ literal ∈ clause.literals, allowed literal
  root : ∀ literal ∈ after.trail.facts,
    literal ∈ engine.trail.facts ∨ allowed literal
  flags : engine.trail.SameFlags after.trail
  records : after.records = engine.records

theorem Grows.refl {allowed : Literal → Prop} : Grows engine allowed engine :=
  ⟨fun _ _ found => found, fun _ _ found => .inl found, fun _ member => .inl member,
    .refl _, rfl⟩

theorem Grows.mono {allowed more : Literal → Prop} (grows : Grows engine allowed after)
    (holds : ∀ literal, allowed literal → more literal) : Grows engine more after := by
  refine ⟨grows.older, ?_, ?_, grows.flags, grows.records⟩
  · intro handle clause found
    rcases grows.newer handle clause found with earlier | new
    · exact .inl earlier
    · exact .inr fun literal member => holds literal (new literal member)
  · intro literal member
    rcases grows.root literal member with earlier | new
    · exact .inl earlier
    · exact .inr (holds literal new)

/-- The formula after a literal of a clause became a root literal. -/
theorem contains_of_root (member : literal ∈ literals) (atRoot : literal ∈ engine.trail.facts) :
    engine.picture.Contains literals := by
  refine ⟨[literal], Picture.mem_formula_of_root atRoot, fun other single => ?_⟩
  rw [List.mem_singleton.1 single]
  exact member

/-- An inserted clause is one clause more. -/
theorem Inserts.grows {redundant : Bool} (inserts : Inserts engine literals redundant after)
    (sorted : literals.Pairwise (· < ·)) : Grows engine (· ∈ literals) after := by
  refine ⟨?_, ?_, ?_, ?_, inserts.records⟩
  · intro handle clause found
    rw [Arena.get?_eq_some] at found ⊢
    rw [inserts.epoch, inserts.slots, Array.getElem?_push]
    have inside : handle.index < engine.arena.slots.size :=
      (Array.getElem?_eq_some_iff.1 found.2).1
    rw [if_neg (by omega)]
    exact found
  · intro handle clause found
    rw [Arena.get?_eq_some, inserts.epoch, inserts.slots, Array.getElem?_push] at found
    obtain ⟨current, inSlot⟩ := found
    split at inSlot
    next =>
      right
      intro literal member
      rw [← Option.some.inj inSlot] at member
      exact (sortedLiterals_of_pairwise sorted) ▸ member
    next => exact .inl (Arena.get?_eq_some.2 ⟨current, inSlot⟩)
  · intro literal member
    rw [inserts.trail] at member
    exact .inl member
  · rw [inserts.trail]
    exact .refl _

/-- An assigned literal is added. -/
theorem Assigns.grows (assigns : Assigns engine literal after) :
    Grows engine (· = literal) after := by
  refine ⟨?_, ?_, assigns.root, assigns.flags, assigns.records⟩
  · intro handle clause found
    rw [assigns.arena]
    exact found
  · intro handle clause found
    rw [assigns.arena] at found
    exact .inl found

/-- A clause that follows by unit propagation is added, or a part of it. -/
theorem works_addClause [Realm] {redundant : Bool}
    (present : ∀ literal ∈ literals, engine.picture.Present literal.var)
    (follows : Rup engine.picture.formula literals)
    (pure : engine.arena.Irredundant → redundant = false) :
    Works scope (addClause literals redundant) engine fun _ after =>
      Grows engine (· ∈ literals) after ∧
        (hasComplements (sortedLiterals literals) = true ∨ after.picture.Contains literals) := by
  refine .of_ends fun sound => ?_
  refine storeClause_ends sound.trail ?_ ?_ ?_ ?_
  · rintro ⟨literal, member, wrong⟩
    obtain ⟨positive, inside, _⟩ := present literal member
    have bound : literal.var ≤ engine.numVars := inside
    omega
  · exact fun _ complementary => ⟨.refl sound, .refl, .inl complementary⟩
  · rintro ⟨literal, member, atRoot⟩
    exact ⟨.refl sound, .refl, .inr (contains_of_root member atRoot)⟩
  intro _ plain remaining reduced
  have followsRest := reduced.rup follows
  rcases remaining with _ | ⟨first, _ | ⟨second, others⟩⟩
  · exact .fail (.of_refuted sound rfl followsRest)
  · have member : first ∈ literals := reduced.subset List.mem_cons_self
    refine (works_assignUnit (present first member) followsRest sound).bind ?_
    rintro _ after ⟨leads, assigns⟩
    refine .pure ⟨leads, assigns.grows.mono ?_, .inr (contains_of_root member assigns.atRoot)⟩
    rintro _ rfl
    exact member
  · have admits := reduced.admits present plain (by simp)
    refine .step rfl (insertClause_seq ?_ reduced.sorted fun after inserts => ?_)
    · exact sound.toInStep.of_same rfl rfl rfl rfl
    have steps : Steps scope engine.picture { engine.picture.logged
        [.added (first :: second :: others)] with
          clauses := (first :: second :: others) ::ₘ engine.arena.contents
          irredundant := after.arena.Irredundant } := by
      refine .tail (.single (.learn _ admits followsRest
        fun literal member => .inr (reduced.isOpen literal member))) (.recast _ fun isPure => ?_)
      exact inserts.irredundant isPure (pure isPure)
    have picture : after.picture = { engine.picture.logged [.added (first :: second :: others)] with
        clauses := (first :: second :: others) ::ₘ engine.arena.contents
        irredundant := after.arena.Irredundant } := by
      unfold Engine.picture numVars Picture.logged
      rw [inserts.trail, inserts.records, inserts.proof, inserts.contents]
      simp [Function.comp_def]
    have grows := (inserts.grows reduced.sorted).mono fun literal inside => reduced.subset inside
    have goes : engine.Goes scope { after with changes := after.changes + 1 } := by
      refine ⟨inserts.inStep.of_same rfl rfl rfl rfl, fun _ => ?_, inserts.trail ▸ id,
        inserts.trail ▸ id, inserts.dirty ▸ id, inserts.unsat, inserts.poisoned, inserts.settings⟩
      refine .of_subset grows.flags grows.records ?_ fun values holds => ?_
      · rintro literals (⟨handle, clause, live, irredundant, rfl⟩ | atRoot)
        · refine .inl ⟨handle, clause, Arena.live?_eq_some.2 ?_, irredundant, rfl⟩
          obtain ⟨found, alive⟩ := Arena.live?_eq_some.1 live
          exact ⟨grows.older handle clause found, alive⟩
        · exact .inr (inserts.trail.symm ▸ atRoot)
      · exact picture ▸ Steps.holds steps sound.wellFormed holds
    refine .step rfl (.pure ⟨.of_steps goes (picture ▸ steps) inserts.applied,
      ⟨grows.older, grows.newer, grows.root, grows.flags, grows.records⟩, .inr ?_⟩)
    refine ⟨first :: second :: others, .inl ?_, reduced.subset⟩
    change _ ∈ after.arena.contents
    rw [inserts.contents]
    exact Multiset.mem_cons_self _ _

end Engine

end CnfSimplifier
