import CnfSimplifier.Proofs.Picture
import Mathlib.Data.List.Perm.Subperm

/-!
# What steps preserve

For every kind of step: the form of the picture, the models, the protected
variables. Models go forward unchanged: whatever satisfies a formula satisfies the
one after a step. They come back through the records: a model of the formula
after a step satisfies the one before once the records of the step are unwound.
-/
namespace CnfSimplifier

variable [Realm]

namespace Step

variable {scope : Scope} {before after : Picture}

/-- A step leaves the number of variables and their protection. -/
theorem numVars_eq (step : Step scope before after) : after.numVars = before.numVars := by
  cases step <;> rfl

theorem frozen_eq (step : Step scope before after) : after.frozen = before.frozen := by
  cases step <;> rfl

theorem irredundant (step : Step scope before after) (pure : before.irredundant) :
    after.irredundant := by
  cases step with
  | recast irredundant kept => exact kept pure
  | _ => exact pure

/-- Only removal lets variables go. -/
theorem removed_eq (step : Step scope before after) (narrow : scope ≠ .removal) :
    after.removed = before.removed := by
  cases step with
  | retire name wide => exact absurd wide narrow
  | _ => rfl

/-- Only unprotected variables go. -/
theorem removed_cases (step : Step scope before after) {name : Nat} (gone : after.removed name) :
    before.removed name ∨ ¬ before.frozen name := by
  cases step with
  | retire name wide unprotected unmentioned =>
    rcases gone with rfl | earlier
    · exact .inr unprotected
    · exact .inl earlier
  | _ => exact .inl gone

/-- Entry 0 belongs to no variable, so it does not go. -/
theorem kept_zero (step : Step scope before after) (kept : ¬ before.removed 0) :
    ¬ after.removed 0 := by
  cases step with
  | retire name wide unprotected unmentioned positive =>
    rintro (same | gone)
    · exact positive.ne same
    · exact kept gone
  | _ => exact kept

/-- Root literals are only ever added at the end. -/
theorem root_append (step : Step scope before after) :
    ∃ literals, after.root = before.root ++ literals := by
  cases step with
  | assign literal => exact ⟨[literal], rfl⟩
  | _ => exact ⟨[], (List.append_nil _).symm⟩

/-- What is mentioned after a step was mentioned before it, or it was open. -/
theorem mentions_cases (step : Step scope before after) {name : Nat} (mentions : after.Mentions name) :
    before.Mentions name ∨ ∀ other ∈ before.root, other.var ≠ name := by
  obtain ⟨literals, clause, literal, member, rfl⟩ := mentions
  have old : literals ∈ before.clauses → before.Mentions literal.var := fun earlier =>
    ⟨literals, earlier, literal, member, rfl⟩
  cases step with
  | learn learnt admits follows known =>
    rcases Multiset.mem_cons.1 clause with rfl | earlier
    · exact known literal member
    · exact .inl (old earlier)
  | drop _ _ split => exact .inl (old (split ▸ Multiset.mem_cons_of_mem clause))
  | dropImplied _ _ _ _ split => exact .inl (old (split ▸ Multiset.mem_cons_of_mem clause))
  | weaken _ _ _ _ split => exact .inl (old (split ▸ Multiset.mem_add.2 (.inr clause)))
  | _ => exact .inl (old clause)

/-- Applied root literals stay applied. -/
theorem settles (step : Step scope before after) {applied : Nat} (settles : before.Settles applied) :
    after.Settles applied := by
  obtain ⟨literals, appended⟩ := step.root_append
  refine ⟨?_, fun literal member mentions => ?_⟩
  · rw [appended, List.length_append]
    exact Nat.le_add_right_of_le settles.inTrail
  · rw [appended, List.take_append_of_le_length settles.inTrail] at member
    rcases step.mentions_cases mentions with earlier | isOpen
    · exact settles.unmentioned literal member earlier
    · exact isOpen literal (List.mem_of_mem_take member) rfl

/-- A step leaves a picture well-formed. -/
theorem wellFormed (step : Step scope before after) (wellFormed : before.WellFormed) :
    after.WellFormed := by
  cases step with
  | assign literal helpers present isOpen =>
    refine ⟨fun other clause => (wellFormed.admits other clause).of_same_vars rfl rfl,
      fun other atRoot => ?_, ?_⟩
    · rcases List.mem_append.1 atRoot with earlier | new
      · exact wellFormed.known other earlier
      · rw [List.mem_singleton.1 new]
        exact present.known
    · simp only [List.map_append, List.map_cons, List.map_nil]
      refine List.nodup_append.2 ⟨wellFormed.distinct, by simp, ?_⟩
      intro name earlier other new same
      obtain ⟨root, atRoot, rfl⟩ := List.mem_map.1 earlier
      exact isOpen root atRoot (same.trans (List.mem_singleton.1 new))
  | learn literals admits =>
    refine ⟨fun other clause => ?_, wellFormed.known, wellFormed.distinct⟩
    rcases Multiset.mem_cons.1 clause with rfl | earlier
    · exact admits.of_same_vars rfl rfl
    · exact (wellFormed.admits other earlier).of_same_vars rfl rfl
  | drop literals rest split =>
    refine ⟨fun other clause => ?_, wellFormed.known, wellFormed.distinct⟩
    exact (wellFormed.admits other (split ▸ Multiset.mem_cons_of_mem clause)).of_same_vars rfl rfl
  | dropImplied literals rest _ _ split =>
    refine ⟨fun other clause => ?_, wellFormed.known, wellFormed.distinct⟩
    exact (wellFormed.admits other (split ▸ Multiset.mem_cons_of_mem clause)).of_same_vars rfl rfl
  | report =>
    exact ⟨fun other clause => (wellFormed.admits other clause).of_same_vars rfl rfl,
      wellFormed.known, wellFormed.distinct⟩
  | weaken gone kept records _ split =>
    refine ⟨fun other clause => ?_, wellFormed.known, wellFormed.distinct⟩
    have earlier : other ∈ before.clauses := split ▸ Multiset.mem_add.2 (.inr clause)
    exact (wellFormed.admits other earlier).of_same_vars rfl rfl
  | retire name _ _ unmentioned =>
    have stays : ∀ literals ∈ before.formula, ∀ literal ∈ literals,
        ¬ before.removed literal.var → ¬ (literal.var = name ∨ before.removed literal.var) := by
      rintro literals clause literal member kept (same | gone)
      · exact unmentioned literals clause literal member same
      · exact kept gone
    refine ⟨fun other clause => ?_, fun literal atRoot => ?_, wellFormed.distinct⟩
    · obtain ⟨sorted, two, present, proper⟩ := wellFormed.admits other clause
      refine ⟨sorted, two, fun literal member => ?_, proper⟩
      obtain ⟨positive, small, kept, inRealm⟩ := present literal member
      exact ⟨positive, small, kept.imp_left (stays other (.inl clause) literal member), inRealm⟩
    · obtain ⟨positive, small, kept, inRealm⟩ := wellFormed.known literal atRoot
      exact ⟨positive, small, kept.imp_left (stays _ (Picture.mem_formula_of_root atRoot) literal
        List.mem_cons_self), inRealm⟩
  | recast =>
    exact ⟨fun other clause => (wellFormed.admits other clause).of_same_vars rfl rfl,
      wellFormed.known, wellFormed.distinct⟩

/-! ## Models -/

/-- Every model satisfies the formula after a step. -/
theorem holds (step : Step scope before after) (wellFormed : before.WellFormed)
    {values : Assignment} (holds : before.Holds values) : after.Holds values := by
  cases step with
  | assign literal helpers present isOpen helped follows =>
    rintro literals (clause | ⟨unit, atRoot, rfl⟩)
    · exact holds literals (.inl clause)
    rcases List.mem_append.1 atRoot with earlier | new
    · exact holds _ (Picture.mem_formula_of_root earlier)
    rw [List.mem_singleton.1 new]
    refine follows.clauseHolds ?_ ?_ ?_
    · rintro literals (clause | helper)
      · exact wellFormed.overVars literals clause
      · exact (helped literals helper).1
    · rintro literals (clause | helper)
      · exact holds literals clause
      · obtain ⟨overVars, redundant⟩ := helped literals helper
        exact redundant.clauseHolds wellFormed.overVars holds overVars
    · intro other member
      rw [List.mem_singleton.1 member]
      exact present.1
  | learn literals admits follows =>
    rintro other (clause | atRoot)
    · rcases Multiset.mem_cons.1 clause with rfl | earlier
      · exact follows.clauseHolds wellFormed.overVars holds fun l member =>
          (admits.present l member).1
      · exact holds other (.inl earlier)
    · exact holds other (.inr atRoot)
  | drop literals rest split =>
    rintro other (clause | atRoot)
    · exact holds other (.inl (split ▸ Multiset.mem_cons_of_mem clause))
    · exact holds other (.inr atRoot)
  | dropImplied literals rest _ _ split =>
    rintro other (clause | atRoot)
    · exact holds other (.inl (split ▸ Multiset.mem_cons_of_mem clause))
    · exact holds other (.inr atRoot)
  | report => exact holds
  | weaken gone kept records _ split =>
    rintro other (clause | atRoot)
    · exact holds other (.inl (split ▸ Multiset.mem_add.2 (.inr clause)))
    · exact holds other (.inr atRoot)
  | retire => exact holds
  | recast => exact holds

/-- A step pushes no records and every model comes back unchanged, or clauses go with
records whose unwinding brings models back unless clauses are redundant. -/
theorem back_or_unwind (step : Step scope before after) :
    (after.records = before.records ∧ ∀ values, after.Holds values → before.Holds values) ∨
    (scope = .removal ∧ ∃ records : List Record,
      after.records = before.records.pushAll records ∧
      (∀ record ∈ records, Picture.RecordFits before.numVars record) ∧
      (∀ record ∈ records, ¬ before.frozen record.chosen.var) ∧
      (before.irredundant → ∀ values, after.Holds values →
        before.Holds (unwind records values))) := by
  cases step with
  | assign literal helpers =>
    refine .inl ⟨rfl, fun values holds => ?_⟩
    rintro literals (clause | ⟨unit, atRoot, rfl⟩)
    · exact holds literals (.inl clause)
    · exact holds _ (.inr ⟨unit, List.mem_append_left _ atRoot, rfl⟩)
  | learn literals =>
    refine .inl ⟨rfl, fun values holds => ?_⟩
    rintro other (clause | atRoot)
    · exact holds other (.inl (Multiset.mem_cons_of_mem clause))
    · exact holds other (.inr atRoot)
  | drop literals rest split contained =>
    refine .inl ⟨rfl, fun values holds => ?_⟩
    rintro other (clause | atRoot)
    · rcases Multiset.mem_cons.1 (split ▸ clause) with rfl | kept
      · exact contained.clauseHolds holds
      · exact holds other (.inl kept)
    · exact holds other (.inr atRoot)
  | dropImplied literals rest _ _ split implied =>
    refine .inl ⟨rfl, fun values holds => ?_⟩
    rintro other (clause | atRoot)
    · rcases Multiset.mem_cons.1 (split ▸ clause) with rfl | kept
      · exact implied values holds
      · exact holds other (.inl kept)
    · exact holds other (.inr atRoot)
  | report => exact .inl ⟨rfl, fun _ holds => holds⟩
  | weaken gone kept records wide split present unprotected repairs =>
    refine .inr ⟨wide, records, rfl, fun record member literal inside => ?_, unprotected, repairs⟩
    obtain ⟨positive, inRange, _, inRealm⟩ := present record member literal inside
    exact ⟨positive, inRange, inRealm⟩
  | retire => exact .inl ⟨rfl, fun _ holds => holds⟩
  | recast => exact .inl ⟨rfl, fun _ holds => holds⟩

/-- The records that a step pushes. Unless clauses are redundant, unwinding them
brings models back. -/
theorem exists_unwind (step : Step scope before after) :
    ∃ records : List Record,
      after.records = before.records.pushAll records ∧
      (∀ record ∈ records, Picture.RecordFits before.numVars record) ∧
      (∀ record ∈ records, ¬ before.frozen record.chosen.var) ∧
      (before.irredundant → ∀ values, after.Holds values →
        before.Holds (unwind records values)) := by
  rcases step.back_or_unwind with ⟨same, back⟩ | ⟨_, weakens⟩
  · exact ⟨[], same, by simp, by simp, fun _ => back⟩
  · exact weakens

/-- Without removal every model comes back. -/
theorem back (step : Step scope before after) (narrow : scope ≠ .removal)
    {values : Assignment} (holds : after.Holds values) : before.Holds values :=
  (step.back_or_unwind.resolve_right fun ⟨wide, _⟩ => narrow wide).2 values holds

/-! ## What smaller scopes keep -/

/-- A step of propagation keeps a part of every clause. -/
theorem covers (step : Step .propagation before after) :
    Covers after.formula before.formula := by
  cases step with
  | assign literal helpers =>
    refine .of_subset ?_
    rintro literals (clause | ⟨unit, atRoot, rfl⟩)
    · exact .inl clause
    · exact .inr ⟨unit, List.mem_append_left _ atRoot, rfl⟩
  | learn literals =>
    refine .of_subset ?_
    rintro other (clause | atRoot)
    · exact .inl (Multiset.mem_cons_of_mem clause)
    · exact .inr atRoot
  | drop literals rest split contained =>
    rintro other (clause | atRoot)
    · rcases Multiset.mem_cons.1 (split ▸ clause) with rfl | kept
      · exact contained
      · exact ⟨other, .inl kept, List.Subset.refl _⟩
    · exact ⟨other, .inr atRoot, List.Subset.refl _⟩
  | dropImplied _ _ wide => exact absurd rfl wide
  | report => exact .of_subset Set.Subset.rfl
  | weaken _ _ _ wide => exact absurd wide (by decide)
  | retire _ wide => exact absurd wide (by decide)
  | recast => exact .of_subset Set.Subset.rfl

/-- As long as no clause goes with a record, something smaller than any two given
literals stays. -/
theorem contains_pair (step : Step scope before after) (narrow : scope ≠ .removal)
    (wellFormed : before.WellFormed) {a b : Literal}
    (contains : before.Contains [a, b]) : after.Contains [a, b] := by
  obtain ⟨part, clause, small⟩ := contains
  -- A step that drops other clauses only keeps this one.
  have keeps : part ∈ after.formula → after.Contains [a, b] := fun kept => ⟨part, kept, small⟩
  cases step with
  | assign literal helpers =>
    rcases clause with clause | ⟨unit, atRoot, rfl⟩
    · exact keeps (.inl clause)
    · exact keeps (.inr ⟨unit, List.mem_append_left _ atRoot, rfl⟩)
  | learn literals =>
    rcases clause with clause | atRoot
    · exact keeps (.inl (Multiset.mem_cons_of_mem clause))
    · exact keeps (.inr atRoot)
  | drop literals rest split contained =>
    rcases clause with clause | atRoot
    · rcases Multiset.mem_cons.1 (split ▸ clause) with rfl | kept
      · obtain ⟨smaller, inRest, below⟩ := contained
        exact ⟨smaller, inRest, fun literal member => small (below member)⟩
      · exact keeps (.inl kept)
    · exact keeps (.inr atRoot)
  | dropImplied literals rest _ long split =>
    exact Picture.Contains.without_long wellFormed split long ⟨part, clause, small⟩
  | report => exact keeps clause
  | weaken _ _ _ wide => exact absurd wide narrow
  | retire _ wide => exact absurd wide narrow
  | recast => exact keeps clause

/-- A step of a smaller scope is one of a larger scope. -/
theorem widen {wider : Scope} (step : Step scope before after)
    (fromEquivalence : scope = .equivalence → wider ≠ .propagation)
    (fromRemoval : scope = .removal → wider = .removal) : Step wider before after := by
  cases step with
  | assign literal helpers present isOpen helped follows =>
    exact .assign literal helpers present isOpen helped follows
  | learn literals admits follows known => exact .learn literals admits follows known
  | drop literals rest split contained => exact .drop literals rest split contained
  | dropImplied literals rest wide long split implied =>
    refine .dropImplied literals rest ?_ long split implied
    cases scope with
    | propagation => exact absurd rfl wide
    | equivalence => exact fromEquivalence rfl
    | removal =>
      rw [fromRemoval rfl]
      decide
  | report literals rest split => exact .report literals rest split
  | weaken gone kept records wide split present unprotected repairs =>
    exact .weaken gone kept records (fromRemoval wide) split present unprotected repairs
  | retire name wide unprotected unmentioned positive =>
    exact .retire name (fromRemoval wide) unprotected unmentioned positive
  | recast irredundant kept => exact .recast irredundant kept

end Step

/-! ## Sequences of steps -/

namespace Steps

variable {scope : Scope} {before after : Picture}

theorem numVars_eq (steps : Steps scope before after) : after.numVars = before.numVars := by
  induction steps with
  | refl => rfl
  | tail _ step ih => exact step.numVars_eq.trans ih

theorem frozen_eq (steps : Steps scope before after) : after.frozen = before.frozen := by
  induction steps with
  | refl => rfl
  | tail _ step ih => exact step.frozen_eq.trans ih

theorem kept_zero (steps : Steps scope before after) (kept : ¬ before.removed 0) :
    ¬ after.removed 0 := by
  induction steps with
  | refl => exact kept
  | tail _ step ih => exact step.kept_zero ih

theorem irredundant (steps : Steps scope before after) (pure : before.irredundant) :
    after.irredundant := by
  induction steps with
  | refl => exact pure
  | tail _ step ih => exact step.irredundant ih

theorem wellFormed (steps : Steps scope before after) (wellFormed : before.WellFormed) :
    after.WellFormed := by
  induction steps with
  | refl => exact wellFormed
  | tail _ step ih => exact step.wellFormed ih

theorem removed_eq (steps : Steps scope before after) (narrow : scope ≠ .removal) :
    after.removed = before.removed := by
  induction steps with
  | refl => rfl
  | tail _ step ih => exact (step.removed_eq narrow).trans ih

/-- Without removal variables of the formula stay so. -/
theorem present (steps : Steps scope before after) (narrow : scope ≠ .removal) {name : Nat}
    (present : before.Present name) : after.Present name := by
  unfold Picture.Present
  rw [Steps.numVars_eq steps, Steps.removed_eq steps narrow]
  exact present

/-- Only unprotected variables go. -/
theorem removed_cases (steps : Steps scope before after) {name : Nat}
    (gone : after.removed name) : before.removed name ∨ ¬ before.frozen name := by
  induction steps with
  | refl => exact .inl gone
  | tail earlier step ih =>
    rcases step.removed_cases gone with already | unprotected
    · exact ih already
    · rw [Steps.frozen_eq earlier] at unprotected
      exact .inr unprotected

/-- Root literals are only added. -/
theorem root_append (steps : Steps scope before after) :
    ∃ literals, after.root = before.root ++ literals := by
  induction steps with
  | refl => exact ⟨[], (List.append_nil _).symm⟩
  | tail _ step ih =>
    obtain ⟨first, atFirst⟩ := ih
    obtain ⟨second, atSecond⟩ := step.root_append
    exact ⟨first ++ second, by rw [atSecond, atFirst, List.append_assoc]⟩

theorem settles (steps : Steps scope before after) {applied : Nat}
    (settles : before.Settles applied) : after.Settles applied := by
  induction steps with
  | refl => exact settles
  | tail _ step ih => exact step.settles ih

/-- Every model of a formula satisfies what steps make of it. -/
theorem holds (steps : Steps scope before after) (wellFormed : before.WellFormed)
    {values : Assignment} (holds : before.Holds values) : after.Holds values := by
  induction steps with
  | refl => exact holds
  | tail earlier step ih => exact step.holds (Steps.wellFormed earlier wellFormed) ih

/-- Without removal every model comes back. -/
theorem back (steps : Steps scope before after) (narrow : scope ≠ .removal)
    {values : Assignment} (holds : after.Holds values) : before.Holds values := by
  induction steps with
  | refl => exact holds
  | tail _ step ih => exact ih (step.back narrow holds)

/-- The records that steps push. Unless clauses are redundant, unwinding them brings
models back. -/
theorem exists_unwind (steps : Steps scope before after) :
    ∃ records : List Record,
      after.records = before.records.pushAll records ∧
      (∀ record ∈ records, Picture.RecordFits before.numVars record) ∧
      (∀ record ∈ records, ¬ before.frozen record.chosen.var) ∧
      (before.irredundant → ∀ values, after.Holds values →
        before.Holds (unwind records values)) := by
  induction steps with
  | refl => exact ⟨[], rfl, by simp, by simp, fun _ _ holds => holds⟩
  | tail earlier step ih =>
    obtain ⟨first, pushedFirst, fitsFirst, freeFirst, backFirst⟩ := ih
    obtain ⟨second, pushedSecond, fitsSecond, freeSecond, backSecond⟩ := step.exists_unwind
    rw [Steps.numVars_eq earlier] at fitsSecond
    rw [Steps.frozen_eq earlier] at freeSecond
    refine ⟨first ++ second, ?_, List.forall_mem_append.2 ⟨fitsFirst, fitsSecond⟩,
      List.forall_mem_append.2 ⟨freeFirst, freeSecond⟩, fun pure values holds => ?_⟩
    · rw [pushedSecond, pushedFirst, Reconstruction.pushAll_append]
    · rw [unwind_append]
      exact backFirst pure _ (backSecond (Steps.irredundant earlier pure) values holds)

/-- Propagation keeps a part of every clause. -/
theorem covers (steps : Steps .propagation before after) :
    Covers after.formula before.formula := by
  induction steps with
  | refl => exact .of_subset Set.Subset.rfl
  | tail _ step ih => exact step.covers.trans ih

theorem contains_pair (steps : Steps scope before after) (narrow : scope ≠ .removal)
    (wellFormed : before.WellFormed) {a b : Literal} (contains : before.Contains [a, b]) :
    after.Contains [a, b] := by
  induction steps with
  | refl => exact contains
  | tail earlier step ih =>
    exact step.contains_pair narrow (Steps.wellFormed earlier wellFormed) ih

/-- Steps of a smaller scope are steps of a larger scope. -/
theorem widen {wider : Scope} (steps : Steps scope before after)
    (fromEquivalence : scope = .equivalence → wider ≠ .propagation)
    (fromRemoval : scope = .removal → wider = .removal) : Steps wider before after := by
  induction steps with
  | refl => exact .refl
  | tail _ step ih => exact ih.tail (step.widen fromEquivalence fromRemoval)

/-- A clause that follows takes the place of one that contains it. -/
theorem shorten {picture : Picture} {literals part : List Literal}
    {rest : Multiset (List Literal)} (split : picture.clauses = literals ::ₘ rest)
    (admits : picture.Admits part) (small : part ⊆ literals) (follows : Rup picture.formula part) :
    Steps scope picture { picture.logged [ProofStep.added part, ProofStep.removed literals] with
      clauses := part ::ₘ rest } := by
  have learnt : Step scope picture { picture.logged [ProofStep.added part] with
      clauses := part ::ₘ picture.clauses } :=
    .learn part admits follows fun literal member =>
      .inl ⟨literals, split ▸ Multiset.mem_cons_self literals rest, literal, small member, rfl⟩
  have dropped : Step scope { picture.logged [ProofStep.added part] with
      clauses := part ::ₘ picture.clauses } { picture.logged [ProofStep.added part] with
        clauses := part ::ₘ rest, pending := literals ::ₘ picture.pending } := by
    refine .drop literals (part ::ₘ rest) ?_ ⟨part, .inl (Multiset.mem_cons_self _ _), small⟩
    change part ::ₘ picture.clauses = literals ::ₘ part ::ₘ rest
    rw [split, Multiset.cons_swap]
  have log : picture.log.map (· ++ [ProofStep.added part, ProofStep.removed literals]) =
      (picture.log.map (· ++ [ProofStep.added part])).map (· ++ [ProofStep.removed literals]) := by
    rw [Option.map_map]
    congr 1
    funext steps
    simp
  unfold Picture.logged at *
  rw [log]
  exact .tail (.tail (.single learnt) dropped) (.report literals picture.pending rfl)

/-- Propagation is part of every scope. -/
theorem of_propagation (steps : Steps .propagation before after) : Steps scope before after :=
  Steps.widen steps (fun impossible => nomatch impossible) (fun impossible => nomatch impossible)

/-- Everything is part of the largest scope. -/
theorem to_removal (steps : Steps scope before after) : Steps .removal before after :=
  Steps.widen steps (fun _ => by decide) (fun _ => rfl)

end Steps

end CnfSimplifier
