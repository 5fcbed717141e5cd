import CnfSimplifier.Proofs.ChangeCounter
import CnfSimplifier.Proofs.Probing

/-!
# Root literals that were applied

Every technique begins by applying the root literals to the clauses. If that brings no
conflict, unit propagation finds none in the formula: all it derives from then on are
the root literals themselves.

Whether a root literal is still to be applied is told by two numbers, the length of the
trail and how much of it was applied. A *settling* computation makes them equal, from
whatever state it starts; a *steady* one keeps them equal. A computation that settles
somewhere and is steady from there on is settling.
-/
namespace CnfSimplifier

namespace Engine

/-- No literal of the trail is still to be applied. -/
def Current (engine : Engine) : Prop := engine.trail.literals.size ≤ engine.applied

/-- The trail and what was applied of it are the same. -/
structure SameQueue (before after : Engine) : Prop where
  literals : after.trail.literals = before.trail.literals
  applied : after.applied = before.applied

theorem SameQueue.current {before after : Engine} (same : before.SameQueue after)
    (current : before.Current) : after.Current := by
  unfold Current at *
  rw [same.literals, same.applied]
  exact current

/-- If no literal was left to apply then none is now. -/
def StaysCurrent (before after : Engine) : Prop := before.Current → after.Current

/-- Clauses that go leave the trail as it is. -/
instance : UpheldByRemovals StaysCurrent :=
  have composes : Composable StaysCurrent := {
    aside := fun same current => by
      unfold Current
      rw [same.trail]
      exact current.trans same.applied
    trans := fun first second current => second (first current) }
  have removes : ∀ {handle : Handle}, Tracks StaysCurrent (removeClause handle) :=
    .after leaves_clause fun _ => .bind tracks_prove fun _ => .bind tracks_updateIndex fun _ =>
      .bind (fun _ => updateArena_ends fun _ _ => id) fun _ _ => .of_done rfl id
  { composes with
    removeClause := removes
    removeWithRecord := .after leaves_clause fun _ => by
      split
      · exact removes
      · exact .bind (fun _ => .of_done rfl id) fun _ => removes }

/-- Marks are no part of the trail. -/
instance : UpheldByMarks StaysCurrent where
  markClause _ _ engine := by
    refine .of_done rfl ?_
    dsimp only [engineOf_engine]
    split <;> exact id

end Engine

variable {σ τ α β : Type} [HasEngine σ] {body : Run σ α}

/-- A computation is done only where no literal is left to apply. -/
def Settling (body : Run σ α) : Prop :=
  ∀ state, body.Ends state (fun _ after => (engineOf after).Current) fun _ _ => True

/-- A computation that starts with no literal to apply is done with none to apply. -/
def Steady (body : Run σ α) : Prop :=
  ∀ state, (engineOf state).Current →
    body.Ends state (fun _ after => (engineOf after).Current) fun _ _ => True

/-! ## How such computations are put together -/

theorem Steady.of_tracks (tracks : Tracks Engine.StaysCurrent body) : Steady body :=
  fun state current => (tracks state).imp (fun _ _ stays => stays current) fun _ _ _ => trivial

theorem Settling.steady (settling : Settling body) : Steady body :=
  fun state _ => settling state

/-- What happens after a failure does not matter. -/
theorem Settling.fail {cause : Error} : Settling (Run.fail cause : Run σ α) := fun _ => trivial

/-- A computation that settles at last. -/
theorem Settling.last {first : Run σ α} {next : α → Run σ β}
    (rest : ∀ value, Settling (next value)) : Settling (first >>= next) :=
  fun _ => .bind .trivial fun value after _ => rest value after

/-- What was settled at first stays so. -/
theorem Settling.first {next : α → Run σ β} (settling : Settling body)
    (rest : ∀ value, Steady (next value)) : Settling (body >>= next) :=
  fun state => .bind (settling state) fun value after current => rest value after current

theorem Settling.lift {body : Run Engine α} (settling : Settling body) :
    Settling (liftM body : Run (τ × Engine) α) :=
  fun state => (Run.Ends.lift (settling state.2)).imp (fun _ _ => And.right) fun _ _ => id

namespace Steady

theorem pure {value : α} : Steady (pure value : Run σ α) := fun _ current => .pure current

theorem stop {why : Breakdown} : Steady (Run.stop why : Run σ α) := fun _ _ => trivial

theorem bind {next : α → Run σ β} (steady : Steady body)
    (rest : ∀ value, Steady (next value)) : Steady (body >>= next) :=
  fun state current => .bind (steady state current) fun value after => rest value after

/-- What only looks at the engine comes first. -/
theorem after {first : Run σ α} {next : α → Run σ β} (leaves : Leaves first)
    (rest : ∀ value, Steady (next value)) : Steady (first >>= next) :=
  .bind (.of_tracks (.of_leaves leaves)) rest

theorem lift {body : Run Engine α} (steady : Steady body) :
    Steady (liftM body : Run (τ × Engine) α) :=
  fun state current =>
    (Run.Ends.lift (steady state.2 current)).imp (fun _ _ => And.right) fun _ _ => id

end Steady

/-! ## The engine -/

namespace Engine

variable {engine : Engine} {literal : Literal}

/-- Applying literals ends at the end of the trail. -/
theorem settling_applyUnits (fuel : Nat) : Settling (applyUnits fuel) := by
  induction fuel with
  | zero => exact fun _ => trivial
  | succ fuel ih =>
    intro engine
    unfold applyUnits
    apply Run.Ends.step rfl
    split
    next none => exact .pure (Array.getElem?_eq_none_iff.1 none)
    next literal here =>
      have onward : Settling (do
          modify fun engine => { engine with applied := engine.applied + 1 }
          removeSatisfied literal (← occurrences literal)
          removeFalsified literal.complement (← occurrences literal.complement)
          applyUnits fuel : Run Engine Unit) :=
        .last fun _ => .last fun _ => .last fun _ => .last fun _ => .last fun _ => ih
      exact onward engine

theorem settling_propagateUnits : Settling propagateUnits :=
  .last fun _ => settling_applyUnits _

/-! ## Conflicts -/

variable [Realm]

/-- Where all root literals were applied, unit propagation derives nothing else. -/
theorem mem_facts_of_propagates (sound : engine.Sound) (applied : Probing.Applied engine)
    (derived : Propagates engine.picture.formula ∅ literal) : literal ∈ engine.trail.facts := by
  induction derived with
  | assumption member => exact absurd member (Set.notMem_empty _)
  | @unit literals literal clause member others falsified =>
    rcases clause with stored | ⟨root, atRoot, rfl⟩
    · -- Another literal of the clause would have to be false at the root.
      have admits := sound.wellFormed.admits literals stored
      obtain ⟨other, inside, different⟩ : ∃ other ∈ literals, other ≠ literal := by
        by_contra! alone
        have nodup := admits.nodup
        have two := admits.two
        rw [List.eq_replicate_of_mem alone, List.nodup_replicate] at nodup
        omega
      have sameVar := Literal.var_complement (admits.present other inside).1
      exact absurd ⟨literals, stored, other, inside, sameVar.symm⟩
        (applied.unmentioned (falsified other inside different))
    · rw [List.mem_singleton.1 member]
      exact atRoot

/-- Where all root literals were applied, unit propagation finds no conflict. -/
theorem not_rup_of_applied (sound : engine.Sound) (applied : Probing.Applied engine) :
    ¬ Rup engine.picture.formula [] := by
  rintro ⟨literals, clause, falsified⟩
  have atRoot : ∀ literal ∈ literals, literal.complement ∈ engine.trail.facts := by
    intro literal member
    exact mem_facts_of_propagates sound applied (negations_nil ▸ falsified literal member)
  rcases clause with stored | ⟨root, fact, rfl⟩
  · have admits := sound.wellFormed.admits literals stored
    have some_ : 0 < literals.length := Nat.lt_of_lt_of_le Nat.zero_lt_two admits.two
    obtain ⟨literal, member⟩ := List.exists_mem_of_length_pos some_
    have sameVar := Literal.var_complement (admits.present literal member).1
    exact applied.unmentioned (atRoot literal member) ⟨literals, stored, literal, member,
      sameVar.symm⟩
  · have positive := (sound.wellFormed.known root fact).1
    have same := List.inj_on_of_nodup_map sound.wellFormed.distinct
      (atRoot root List.mem_cons_self) fact (Literal.var_complement positive)
    exact Literal.complement_ne positive same

/-- Applying the root literals fails if unit propagation finds a conflict. -/
theorem propagateUnits_consistent (sound : engine.Sound) (settled : engine.Settled) :
    propagateUnits.Ends engine (fun _ _ => ¬ Rup engine.picture.formula []) fun _ _ => True := by
  have works : Works .propagation propagateUnits engine _ := Probing.works_propagateUnits settled
  refine (works sound).imp (fun _ after => ?_) fun _ _ _ => trivial
  rintro ⟨leads, applied⟩ conflict
  have covers : Covers after.picture.formula engine.picture.formula := Steps.covers leads.steps
  exact not_rup_of_applied (leads.sound sound) applied (conflict.of_covers covers)

end Engine

end CnfSimplifier
