import CnfSimplifier.Clause
import CnfSimplifier.Proofs.Steps
import Mathlib.Data.Multiset.ZeroCons
import Mathlib.Algebra.Order.Group.Multiset
import Mathlib.Tactic.Abel

/-!
# Proofs as derivations

A reader of a proof holds a list of clauses. An addition has to be redundant by
reverse unit propagation against the list and is put in front of it. A removal
takes one clause with the same members off the list, if there is one; the reader
cannot tell which of several copies was meant, and the clause it holds may be
longer than the one in the formula, since literals that are false at the root are
left out of clauses when they come in.

The formula and the list therefore differ. What connects them is that every
clause of the formula is backed by one of the list, each by its own: a clause with
more literals at most, all of which are false by earlier root literals. A removal
that hits the backing of another clause is made up for: the clause whose removal
was meant loses its backing, and that one takes over.
-/
namespace CnfSimplifier

/-- Two clauses have the same members. -/
def sameMembers (first second : List Literal) : Bool :=
  sortedLiterals first == sortedLiterals second

theorem mem_iff_of_sameMembers {first second : List Literal}
    (same : sameMembers first second = true) (literal : Literal) :
    literal ∈ first ↔ literal ∈ second := by
  rw [← mem_sortedLiterals, eq_of_beq same, mem_sortedLiterals]

namespace ProofStep

/-- The clauses that a reader holds after a step. -/
def follow (held : List (List Literal)) : ProofStep → List (List Literal)
  | .added literals => literals :: held
  | .removed literals => held.eraseP (sameMembers literals)

/-- The clauses that a reader holds after some steps. -/
def followAll (held : List (List Literal)) (steps : List ProofStep) : List (List Literal) :=
  steps.foldl follow held

/-- Every addition is redundant by reverse unit propagation when it is made. -/
def Derivation (held : List (List Literal)) : List ProofStep → Prop
  | [] => True
  | .added literals :: rest =>
    Rup {clause | clause ∈ held} literals ∧ Derivation (literals :: held) rest
  | .removed literals :: rest => Derivation (held.eraseP (sameMembers literals)) rest

theorem followAll_append (held : List (List Literal)) (first second : List ProofStep) :
    followAll held (first ++ second) = followAll (followAll held first) second :=
  List.foldl_append

/-- A derivation can be cut anywhere. -/
theorem derivation_append {held : List (List Literal)} {first second : List ProofStep} :
    Derivation held (first ++ second) ↔
      Derivation held first ∧ Derivation (followAll held first) second := by
  induction first generalizing held with
  | nil => simp [Derivation, followAll]
  | cons step rest ih =>
    cases step with
    | added literals =>
      simp only [List.cons_append, Derivation, ih, followAll, List.foldl_cons, follow, and_assoc]
    | removed literals =>
      simp only [List.cons_append, Derivation, ih, followAll, List.foldl_cons, follow]

end ProofStep

open ProofStep

/-! ## Backing -/

/-- The first clause stands for the second one: it contains it, and its other
literals are false by root literals that were there before the variables of the
second clause got a value. -/
def Supports (root : List Literal) (first second : List Literal) : Prop :=
  second ⊆ first ∧ ∃ known, known <+: root ∧
    (∀ literal ∈ first, literal ∈ second ∨ literal.complement ∈ known) ∧
    ∀ literal ∈ second, ∀ other ∈ known, other.var ≠ literal.var

/-- Every one of some clauses is backed by a held clause of its own. -/
def Backed (root : List Literal) (held : List (List Literal))
    (clauses : Multiset (List Literal)) : Prop :=
  ∃ used unused : Multiset (List Literal),
    (held : Multiset (List Literal)) = used + unused ∧ Multiset.Rel (Supports root) used clauses

variable {root : List Literal} {held : List (List Literal)} {clauses : Multiset (List Literal)}
  {literals : List Literal}

theorem Supports.refl (literals : List Literal) : Supports root literals literals :=
  ⟨List.Subset.refl _, [], List.nil_prefix, fun _ member => .inl member, by simp⟩

theorem Supports.append {first second : List Literal} (supports : Supports root first second)
    (more : List Literal) : Supports (root ++ more) first second := by
  obtain ⟨small, known, before, falsified, fresh⟩ := supports
  exact ⟨small, known, before.trans (List.prefix_append root more), falsified, fresh⟩

/-- A clause that stands for another one stands for the parts that its twin stands
for. -/
theorem Supports.take_over {first twin middle second : List Literal}
    (meant : Supports root first middle) (same : ∀ literal, literal ∈ middle ↔ literal ∈ twin)
    (hit : Supports root twin second) : Supports root first second := by
  obtain ⟨smallMeant, knownMeant, beforeMeant, falseMeant, freshMeant⟩ := meant
  obtain ⟨smallHit, knownHit, beforeHit, falseHit, freshHit⟩ := hit
  have inMiddle : second ⊆ middle := fun literal member => (same literal).2 (smallHit member)
  refine ⟨fun literal member => smallMeant (inMiddle member), ?_⟩
  -- Of the two prefixes of the root literals the longer one serves for both.
  have combined : ∀ known, known <+: root → knownMeant <+: known → knownHit <+: known →
      (∀ literal ∈ second, ∀ other ∈ known, other.var ≠ literal.var) →
      ∃ known, known <+: root ∧
        (∀ literal ∈ first, literal ∈ second ∨ literal.complement ∈ known) ∧
        ∀ literal ∈ second, ∀ other ∈ known, other.var ≠ literal.var := by
    intro known before withMeant withHit fresh
    refine ⟨known, before, fun literal member => ?_, fresh⟩
    rcases falseMeant literal member with inside | falsified
    · rcases falseHit literal ((same literal).1 inside) with inSecond | falsified
      · exact .inl inSecond
      · exact .inr (withHit.subset falsified)
    · exact .inr (withMeant.subset falsified)
  rcases List.prefix_or_prefix_of_prefix beforeMeant beforeHit with shorter | longer
  · exact combined knownHit beforeHit shorter (List.prefix_refl _) freshHit
  · exact combined knownMeant beforeMeant (List.prefix_refl _) longer
      fun literal member => freshMeant literal (inMiddle member)

theorem Backed.append (backed : Backed root held clauses) (more : List Literal) :
    Backed (root ++ more) held clauses := by
  obtain ⟨used, unused, split, related⟩ := backed
  exact ⟨used, unused, split, related.mono fun _ _ _ _ supports => supports.append more⟩

/-- A held clause backs another one that it stands for. -/
theorem Backed.cons (backed : Backed root held clauses) {own literals : List Literal}
    (supports : Supports root own literals) :
    Backed root (own :: held) (literals ::ₘ clauses) := by
  obtain ⟨used, unused, split, related⟩ := backed
  refine ⟨own ::ₘ used, unused, ?_, related.cons supports⟩
  rw [← Multiset.cons_coe, split, Multiset.cons_add]

/-- An added clause backs itself. -/
theorem Backed.add (backed : Backed root held clauses) (literals : List Literal) :
    Backed root (literals :: held) (literals ::ₘ clauses) :=
  backed.cons (.refl literals)

/-- A held clause need not back anything. -/
theorem Backed.hold (backed : Backed root held clauses) (literals : List Literal) :
    Backed root (literals :: held) clauses := by
  obtain ⟨used, unused, split, related⟩ := backed
  refine ⟨used, literals ::ₘ unused, ?_, related⟩
  rw [← Multiset.cons_coe, split, Multiset.add_cons]

/-- A clause that needs no backing may be forgotten. -/
theorem Backed.forget (backed : Backed root held (literals ::ₘ clauses)) :
    Backed root held clauses := by
  obtain ⟨used, unused, split, related⟩ := backed
  obtain ⟨own, others, _, relatedOthers, rfl⟩ := Multiset.rel_cons_right.1 related
  exact ⟨others, own ::ₘ unused, by rw [split, Multiset.cons_add, Multiset.add_cons], relatedOthers⟩

/-- The removal of a clause leaves all others backed, whichever copy it hits. -/
theorem Backed.erase (backed : Backed root held (literals ::ₘ clauses)) :
    Backed root (held.eraseP (sameMembers literals)) clauses := by
  by_cases found : ∃ clause ∈ held, sameMembers literals clause = true
  · obtain ⟨used, unused, split, related⟩ := backed
    obtain ⟨own, others, supports, relatedOthers, rfl⟩ := Multiset.rel_cons_right.1 related
    obtain ⟨clause, inHeld, matching⟩ := found
    obtain ⟨hit, front, back, _, same, heldEq, erased⟩ := List.exists_of_eraseP inHeld matching
    rw [erased]
    -- The held clauses are the hit one and the rest.
    have heldSplit : hit ::ₘ ((front ++ back : List _) : Multiset (List Literal)) =
        own ::ₘ (others + unused) := by
      rw [← Multiset.cons_add, ← split, heldEq, Multiset.cons_coe, Multiset.coe_eq_coe]
      exact List.perm_middle.symm
    have member : hit ∈ own ::ₘ (others + unused) := heldSplit ▸ Multiset.mem_cons_self _ _
    rcases Multiset.mem_cons.1 member with rfl | inRest
    · exact ⟨others, unused, (Multiset.cons_inj_right _).1 heldSplit, relatedOthers⟩
    rcases Multiset.mem_add.1 inRest with inOthers | inUnused
    · -- The clause whose backing was hit gets the backing of the removed one.
      obtain ⟨others, rfl⟩ := Multiset.exists_cons_of_mem inOthers
      obtain ⟨robbed, clauses, backs, relatedRest, rfl⟩ := Multiset.rel_cons_left.1 relatedOthers
      refine ⟨own ::ₘ others, unused, ?_, relatedRest.cons ?_⟩
      · apply (Multiset.cons_inj_right hit).1
        rw [heldSplit, Multiset.cons_add, Multiset.cons_add, Multiset.cons_swap]
      · exact supports.take_over (mem_iff_of_sameMembers same) backs
    · obtain ⟨unused, rfl⟩ := Multiset.exists_cons_of_mem inUnused
      refine ⟨others, own ::ₘ unused, ?_, relatedOthers⟩
      apply (Multiset.cons_inj_right hit).1
      rw [heldSplit, Multiset.add_cons, Multiset.add_cons, Multiset.cons_swap]
  · have unchanged : held.eraseP (sameMembers literals) = held :=
      List.eraseP_of_forall_not fun clause inHeld same => found ⟨clause, inHeld, same⟩
    rw [unchanged]
    exact backed.forget

/-- Every backed clause has a held clause that stands for it. -/
theorem Backed.exists_supports (backed : Backed root held clauses) (clause : literals ∈ clauses) :
    ∃ own ∈ held, Supports root own literals := by
  obtain ⟨used, unused, split, related⟩ := backed
  obtain ⟨own, inUsed, supports⟩ := Multiset.exists_mem_of_rel_of_mem
    (Multiset.rel_flip.2 related) clause
  have inHeld : own ∈ (held : Multiset (List Literal)) :=
    split ▸ Multiset.mem_add.2 (.inl inUsed)
  exact ⟨own, inHeld, supports⟩

/-! ## Propagation over held clauses -/

variable {assumed : Set Literal}

/-- The held clauses derive all root literals, oldest first. -/
theorem Backed.propagates_root (backed : Backed root held clauses)
    (units : ∀ literal ∈ root, [literal] ∈ clauses) {literal : Literal} (atRoot : literal ∈ root) :
    Propagates {clause | clause ∈ held} assumed literal := by
  have upTo : ∀ count, ∀ literal ∈ root.take count,
      Propagates {clause | clause ∈ held} assumed literal := by
    intro count
    induction count with
    | zero => simp
    | succ count ih =>
      intro literal member
      by_cases earlier : literal ∈ root.take count
      · exact ih literal earlier
      obtain ⟨own, inHeld, small, known, before, falsified, fresh⟩ :=
        backed.exists_supports (units literal (List.mem_of_mem_take member))
      refine .unit inHeld (small List.mem_cons_self) fun other inside different => ?_
      rcases falsified other inside with same | inKnown
      · exact absurd (List.mem_singleton.1 same) different
      -- A known literal comes before this one, since it has another variable.
      apply ih
      obtain ⟨more, rfl⟩ := before
      by_cases short : known.length ≤ count
      · rw [List.take_append]
        refine List.mem_append_left _ ?_
        rw [List.take_of_length_le short]
        exact inKnown
      · have inside : literal ∈ known := by
          rw [List.take_append_of_le_length (by omega)] at member
          exact List.mem_of_mem_take member
        exact absurd rfl (fresh literal List.mem_cons_self literal inside)
  exact upTo root.length literal (List.take_length ▸ atRoot)

/-- What backed clauses derive, the held clauses derive as well. -/
theorem Backed.propagates (backed : Backed root held clauses)
    (units : ∀ literal ∈ root, [literal] ∈ clauses) {literal : Literal}
    (derived : Propagates {clause | clause ∈ clauses} assumed literal) :
    Propagates {clause | clause ∈ held} assumed literal := by
  induction derived with
  | assumption member => exact .assumption member
  | @unit literals literal clause member _ falsified =>
    obtain ⟨own, inHeld, small, known, before, extra, _⟩ := backed.exists_supports clause
    refine .unit inHeld (small member) fun other inside different => ?_
    rcases extra other inside with inClause | inKnown
    · exact falsified other inClause different
    · exact backed.propagates_root units (before.subset inKnown)

/-- What is redundant against backed clauses is redundant against the held ones. -/
theorem Backed.rup (backed : Backed root held clauses)
    (units : ∀ literal ∈ root, [literal] ∈ clauses)
    (redundant : Rup {clause | clause ∈ clauses} literals) :
    Rup {clause | clause ∈ held} literals := by
  obtain ⟨conflict, clause, falsified⟩ := redundant
  obtain ⟨own, inHeld, _, known, before, extra, _⟩ := backed.exists_supports clause
  refine ⟨own, inHeld, fun literal inside => ?_⟩
  rcases extra literal inside with inClause | inKnown
  · exact backed.propagates units (falsified literal inClause)
  · exact backed.propagates_root units (before.subset inKnown)

/-- Clauses that are redundant against the backed ones may be added. -/
theorem Backed.add_all (backed : Backed root held clauses)
    (units : ∀ literal ∈ root, [literal] ∈ clauses) (helpers : List (List Literal))
    (redundant : ∀ literals ∈ helpers, Rup {clause | clause ∈ clauses} literals) :
    Derivation held (helpers.map ProofStep.added) ∧
      Backed root (followAll held (helpers.map ProofStep.added)) (helpers + clauses) := by
  induction helpers generalizing held clauses with
  | nil =>
    refine ⟨trivial, ?_⟩
    simpa [followAll] using backed
  | cons helper rest ih =>
    have first := backed.rup units (redundant helper List.mem_cons_self)
    have part : {clause | clause ∈ clauses} ⊆ {clause | clause ∈ helper ::ₘ clauses} :=
      fun clause member => Multiset.mem_cons_of_mem member
    obtain ⟨derivation, backedRest⟩ := ih (backed.add helper)
      (fun literal atRoot => part (units literal atRoot))
      (fun literals member => (redundant literals (List.mem_cons_of_mem _ member)).mono part)
    refine ⟨⟨first, derivation⟩, ?_⟩
    rw [← Multiset.cons_coe, Multiset.cons_add, ← Multiset.add_cons]
    exact backedRest

/-- Clauses that were added may be removed again. -/
theorem Backed.erase_all (helpers : List (List Literal))
    (backed : Backed root held (helpers + clauses)) :
    Derivation held (helpers.map ProofStep.removed) ∧
      Backed root (followAll held (helpers.map ProofStep.removed)) clauses := by
  induction helpers generalizing held with
  | nil =>
    refine ⟨trivial, ?_⟩
    simpa [followAll] using backed
  | cons helper rest ih =>
    rw [← Multiset.cons_coe, Multiset.cons_add] at backed
    exact ih backed.erase

/-! ## Derivations along steps -/

/-- The clauses that a reader has to hold in some form: those of the formula and
those whose removal was not reported. -/
def Picture.obligations (picture : Picture) : Multiset (List Literal) :=
  (picture.root.map fun literal => [literal]) + picture.clauses + picture.pending

/-- The proof so far is a derivation from the given clauses, and the clauses that
its reader holds back the formula. -/
def Picture.Derived (given : List (List Literal)) (picture : Picture) : Prop :=
  ∃ steps, picture.log = some steps ∧ Derivation given steps ∧
    Backed picture.root (followAll given steps) picture.obligations

namespace Picture

variable {given : List (List Literal)} {before after : Picture}

theorem unit_mem_obligations (picture : Picture) :
    ∀ literal ∈ picture.root, [literal] ∈ picture.obligations := by
  intro literal atRoot
  simp only [obligations, Multiset.mem_add, Multiset.mem_coe]
  exact .inl (.inl (List.mem_map_of_mem atRoot))

/-- The formula is among the obligations. -/
theorem formula_subset_obligations (picture : Picture) :
    picture.formula ⊆ {clause | clause ∈ picture.obligations} := by
  rintro literals (clause | ⟨literal, atRoot, rfl⟩)
  · simp only [obligations, Set.mem_ofPred_eq, Multiset.mem_add]
    exact .inl (.inr clause)
  · exact picture.unit_mem_obligations literal atRoot

/-- A picture without further steps of the proof, whose obligations are the same. -/
theorem Derived.of_same (derived : before.Derived given) (sameLog : after.log = before.log)
    (sameRoot : after.root = before.root) (same : after.obligations = before.obligations) :
    after.Derived given := by
  obtain ⟨steps, log, derivation, backed⟩ := derived
  refine ⟨steps, sameLog.trans log, derivation, ?_⟩
  rw [sameRoot, same]
  exact backed

/-- A step keeps the proof a derivation. -/
theorem Derived.step [Realm] {scope : Scope} (derived : before.Derived given)
    (step : Step scope before after) : after.Derived given := by
  cases step with
  | assign literal helpers present isOpen helped follows =>
    obtain ⟨steps, log, derivation, backed⟩ := derived
    have units := before.unit_mem_obligations
    obtain ⟨added, backedHelpers⟩ := backed.add_all units helpers fun literals member =>
      (helped literals member).2.mono before.formula_subset_obligations
    have unit : Rup {clause | clause ∈ followAll (followAll given steps)
        (helpers.map ProofStep.added)} [literal] := by
      refine backedHelpers.rup (fun other atRoot => Multiset.mem_add.2 (.inr (units other atRoot)))
        (follows.mono ?_)
      rintro literals (clause | helper)
      · exact Multiset.mem_add.2 (.inr (before.formula_subset_obligations clause))
      · exact Multiset.mem_add.2 (.inl helper)
    have backedUnit := backedHelpers.add [literal]
    rw [← Multiset.add_cons] at backedUnit
    obtain ⟨removed, backedAfter⟩ := backedUnit.erase_all helpers
    refine ⟨steps ++ (helpers.map ProofStep.added ++ [ProofStep.added [literal]] ++
      helpers.map ProofStep.removed), by simp [logged, log], ?_, ?_⟩
    · rw [derivation_append, derivation_append, derivation_append]
      refine ⟨derivation, ⟨added, unit, trivial⟩, ?_⟩
      rw [followAll_append]
      exact removed
    · rw [followAll_append, followAll_append, followAll_append]
      have same : obligations { before.logged (helpers.map ProofStep.added ++
          [ProofStep.added [literal]] ++ helpers.map ProofStep.removed) with
            root := before.root ++ [literal] } = [literal] ::ₘ before.obligations := by
        simp only [obligations, logged, List.map_append, List.map_cons, List.map_nil,
          ← Multiset.coe_add, ← Multiset.singleton_add]
        rw [← Multiset.coe_singleton]
        abel
      rw [same]
      exact backedAfter.append [literal]
  | learn literals admits follows =>
    obtain ⟨steps, log, derivation, backed⟩ := derived
    have redundant := backed.rup before.unit_mem_obligations
      (follows.mono before.formula_subset_obligations)
    refine ⟨steps ++ [.added literals], by simp [logged, log], ?_, ?_⟩
    · rw [derivation_append]
      exact ⟨derivation, redundant, trivial⟩
    · rw [followAll_append]
      have same : obligations { before.logged [ProofStep.added literals] with
          clauses := literals ::ₘ before.clauses } = literals ::ₘ before.obligations := by
        simp only [obligations, logged, Multiset.add_cons, Multiset.cons_add]
      rw [same]
      exact backed.add literals
  | drop literals rest split =>
    refine derived.of_same rfl rfl ?_
    simp only [obligations, split, Multiset.add_cons, Multiset.cons_add]
  | dropImplied literals rest _ _ split =>
    refine derived.of_same rfl rfl ?_
    simp only [obligations, split, Multiset.add_cons, Multiset.cons_add]
  | report literals rest split =>
    obtain ⟨steps, log, derivation, backed⟩ := derived
    refine ⟨steps ++ [.removed literals], by simp [logged, log], ?_, ?_⟩
    · rw [derivation_append]
      exact ⟨derivation, trivial⟩
    · rw [followAll_append]
      have same : before.obligations = literals ::ₘ obligations
          { before.logged [ProofStep.removed literals] with pending := rest } := by
        simp only [obligations, logged, split, Multiset.add_cons]
      rw [same] at backed
      exact backed.erase
  | weaken gone kept records _ split =>
    refine derived.of_same rfl rfl ?_
    simp only [obligations, split]
    abel
  | retire => exact derived.of_same rfl rfl rfl
  | recast => exact derived.of_same rfl rfl rfl

/-- Steps keep the proof a derivation. -/
theorem Derived.steps [Realm] {scope : Scope} (derived : before.Derived given)
    (steps : Steps scope before after) : after.Derived given := by
  induction steps with
  | refl => exact derived
  | tail _ step ih => exact ih.step step

/-- A formula that propagation refutes lets the proof end with the empty clause. -/
theorem Derived.refute {picture : Picture} (derived : picture.Derived given)
    (refuted : Rup picture.formula []) :
    ∃ steps, picture.log = some steps ∧ Derivation given (steps ++ [.added []]) := by
  obtain ⟨steps, log, derivation, backed⟩ := derived
  have redundant := backed.rup picture.unit_mem_obligations
    (refuted.mono picture.formula_subset_obligations)
  refine ⟨steps, log, ?_⟩
  rw [derivation_append]
  exact ⟨derivation, redundant, trivial⟩

end Picture

end CnfSimplifier
