import CnfSimplifier.Proofs.Consistency
import Mathlib.Data.Finset.Dedup
import Mathlib.Data.Finset.Insert
import Mathlib.Data.Multiset.MapFold

/-!
# The proof mirrors the formula

Someone who reads along in the proof keeps a collection of literal sets: an addition
puts a set in, a removal takes one equal copy out. If the collection is that of the
clauses and root literals before a technique is used, then no removal asks for a set
that is not there, and afterwards the collection is that of the clauses and root
literals again.

Every kind of step is looked at on its own. A clause that left the formula before its
removal was reported is in the collection still, and helpers that a root literal rests
on come and go.
-/
namespace CnfSimplifier

/-! ## Reading along -/

/-- Change a collection of literal sets as a proof step says; a removal asks for a copy
of its set. -/
def ProofStep.apply? (sets : Multiset (Finset Literal)) :
    ProofStep → Option (Multiset (Finset Literal))
  | .added literals => some (literals.toFinset ::ₘ sets)
  | .removed literals =>
    if literals.toFinset ∈ sets then some (sets.erase literals.toFinset) else none

/-- Change a collection of literal sets as the steps of a proof say, in order. -/
def replay? (sets : Multiset (Finset Literal)) (steps : List ProofStep) :
    Option (Multiset (Finset Literal)) :=
  steps.foldlM ProofStep.apply? sets

variable {held middle : Multiset (Finset Literal)}

theorem replay?_append {first second : List ProofStep} (begun : replay? held first = some middle) :
    replay? held (first ++ second) = replay? middle second := by
  unfold replay? at *
  rw [List.foldlM_append, begun]
  rfl

/-- Additions put all their sets in. -/
theorem replay?_added (clauses : List (List Literal)) :
    replay? held (clauses.map ProofStep.added) =
      some ((clauses.map List.toFinset : Multiset (Finset Literal)) + held) := by
  induction clauses generalizing held with
  | nil => simp [replay?]
  | cons clause rest ih =>
    change replay? (clause.toFinset ::ₘ held) (rest.map ProofStep.added) = _
    rw [ih, Multiset.add_cons, List.map_cons, ← Multiset.cons_coe, Multiset.cons_add]

/-- A removal takes a set out that is there. -/
theorem apply?_removed (clause : List Literal) :
    ProofStep.apply? (clause.toFinset ::ₘ held) (.removed clause) = some held := by
  simp only [ ProofStep.apply?, Multiset.mem_cons_self, if_true, Multiset.erase_cons_head]

/-- Removals take the sets out that were put in. -/
theorem replay?_removed (clauses : List (List Literal)) :
    replay? ((clauses.map List.toFinset : Multiset (Finset Literal)) + held)
      (clauses.map ProofStep.removed) = some held := by
  induction clauses with
  | nil => simp [replay?]
  | cons clause rest ih =>
    rw [List.map_cons, ← Multiset.cons_coe, Multiset.cons_add]
    unfold replay? at *
    rw [List.map_cons, List.foldlM_cons, apply?_removed]
    exact ih

/-! ## Steps -/

/-- The literal sets of the clauses, of those whose removal was not reported, and of
the root literals. -/
def Picture.literalSets (picture : Picture) : Multiset (Finset Literal) :=
  picture.clauses.map List.toFinset + picture.pending.map List.toFinset +
    (picture.root.map fun literal => {literal} : List (Finset Literal))

/-- What a step logs turns the collection before it into the one after it. -/
theorem Step.mirrors [Realm] {scope : Scope} {before after : Picture}
    (step : Step scope before after) : ∃ steps, after.log = before.log.map (· ++ steps) ∧
      replay? before.literalSets steps = some after.literalSets := by
  -- Most steps log nothing and move clauses between the two kinds at most.
  have silent : after.log = before.log → after.literalSets = before.literalSets → ∃ steps,
      after.log = before.log.map (· ++ steps) ∧ replay? before.literalSets steps = some after.literalSets := by
    intro log same
    refine ⟨[], by simp [log], ?_⟩
    rw [same]
    rfl
  cases step with
  | assign literal helpers =>
    refine ⟨_, rfl, ?_⟩
    rw [replay?_append (replay?_append (replay?_added helpers) |>.trans rfl)]
    change replay? (({literal} : Finset Literal) ::ₘ _) _ = _
    rw [← Multiset.add_cons, replay?_removed]
    simp only [Picture.literalSets, Picture.logged, List.map_append, List.map_singleton,
      ← Multiset.coe_add, Multiset.coe_singleton, ← Multiset.add_assoc]
    rw [← Multiset.singleton_add, Multiset.add_comm]
  | learn literals =>
    refine ⟨_, rfl, ?_⟩
    change some (literals.toFinset ::ₘ before.literalSets) = _
    simp [Picture.literalSets, Picture.logged]
  | drop literals rest split =>
    refine silent rfl ?_
    simp [Picture.literalSets, split]
  | dropImplied literals rest _ _ split =>
    refine silent rfl ?_
    simp [Picture.literalSets, split]
  | report literals rest split =>
    refine ⟨_, rfl, ?_⟩
    have same : before.literalSets = literals.toFinset ::ₘ Picture.literalSets
        { before.logged [ProofStep.removed literals] with pending := rest } := by
      simp [Picture.literalSets, Picture.logged, split]
    rw [same]
    exact replay?_removed [literals]
  | weaken gone kept records _ split =>
    refine silent rfl ?_
    simp only [Picture.literalSets, split, Multiset.map_add]
    abel
  | retire => exact silent rfl rfl
  | recast => exact silent rfl rfl

/-- What a sequence of steps logs turns the collection before it into the one after it. -/
theorem Steps.mirrors [Realm] {scope : Scope} {before after : Picture}
    (steps : Steps scope before after) : ∃ steps, after.log = before.log.map (· ++ steps) ∧
      replay? before.literalSets steps = some after.literalSets := by
  induction steps with
  | refl => exact ⟨[], by simp, rfl⟩
  | tail _ step ih =>
    obtain ⟨first, logFirst, replayed⟩ := ih
    obtain ⟨second, logSecond, replayedAll⟩ := step.mirrors
    refine ⟨first ++ second, ?_, by rw [replay?_append replayed, replayedAll]⟩
    rw [logSecond, logFirst, Option.map_map]
    congr 1
    funext log
    simp

/-! ## Techniques -/

namespace Engine

/-- The literal sets of the live clauses and of the root literals. -/
def literalSets (engine : Engine) : Multiset (Finset Literal) :=
  (engine.arena.liveClauses.map fun clause => clause.literals.toFinset : List (Finset Literal)) +
    (engine.trail.rootLiterals.map fun literal => {literal} : List (Finset Literal))

/-- Once all removals are reported a reader holds the clauses and root literals. -/
theorem literalSets_picture {engine : Engine} (facts : engine.trail.facts = engine.trail.rootLiterals) :
    engine.picture.literalSets = engine.literalSets := by
  unfold Picture.literalSets literalSets Engine.picture
  dsimp only
  rw [facts, Arena.contents_eq_liveClauses]
  simp [Function.comp_def]

/-- Any technique on a ready engine logs exactly what it does to the clauses and root
literals, unless it refutes the formula. -/
theorem replay_of_process (technique : Technique) {tools toolsAfter : Toolbox}
    {engine after : Engine} {log : Array ProofStep} {status : Status} (ready : engine.Ready)
    (kept : ∀ clause ∈ engine.arena.liveClauses, ∀ literal ∈ clause.literals,
      ¬ engine.trail.Removed literal.var)
    (logged : engine.proof = some log)
    (ended : Toolbox.process technique (tools, engine) = .done status (toolsAfter, after))
    (isOpen : status ≠ .unsat) :
    ∃ steps, after.proof = some (log ++ steps.toArray) ∧
      replay? engine.literalSets steps = some after.literalSets := by
  let _ : Realm := .rootLenient
  have sound : engine.Sound := ready.rootSound kept
  have leads : engine.Leads .removal after := by
    by_cases numbers : technique = .renumbering
    · subst numbers
      exact ((Toolbox.process_renumbering_ends sound id).done_of_eq ended).1
    · have concludes := ((Toolbox.process_ends technique numbers sound fun _ =>
        ready.settled).done_of_eq ended).1
      rcases concludes.of_strict id with ⟨_, leads, _⟩ | ⟨closed, _⟩
      · exact leads
      · exact absurd closed isOpen
  obtain ⟨steps, log, replayed⟩ := Steps.mirrors leads.steps
  have facts : after.trail.facts = after.trail.rootLiterals := by
    rw [leads.inStep.trail.rootLiterals]
    exact leads.orderly ready.orderly
  rw [literalSets_picture ready.facts, literalSets_picture facts] at replayed
  refine ⟨steps, ?_, replayed⟩
  change after.proof.map Array.toList = (engine.proof.map Array.toList).map (· ++ steps) at log
  rw [logged] at log
  obtain ⟨proof, same, list⟩ := Option.map_eq_some_iff.1 log
  rw [same]
  exact congrArg some (Array.toList_inj.1 (list.trans (by simp)))

/-- A variable is replaced by an equivalent one: two clauses are rewritten, and the four
old ones go. -/
theorem replay_of_process_equivalences :
    ∃ tools engine status toolsAfter after log steps, engine.Ready ∧
      (∀ clause ∈ engine.arena.liveClauses, ∀ literal ∈ clause.literals,
        ¬ engine.trail.Removed literal.var) ∧
      engine.proof = some log ∧
      Toolbox.process .equivalences (tools, engine) = .done status (toolsAfter, after) ∧
      status ≠ .unsat ∧ after.proof = some (log ++ List.toArray steps) ∧ steps.length = 6 ∧
      replay? engine.literalSets steps = some after.literalSets := by
  obtain ⟨_, start, made, wasOpen, status, ⟨toolsAfter, after⟩, ended, isOpen, size⟩ :
      (Simplifier.addClauses [[1, -2], [-1, 2], [1, 3, 4], [-2, 4, 5], [2, -4, 5]]).Returns
        (.ofVars {} 5) fun _ start => start.engine.unsat = false ∧
          (Toolbox.process .equivalences).Returns (start.tools, start.keepProof.engine)
            fun status after => status ≠ .unsat ∧ after.2.proof.map Array.size = some 6 := by
    decide +kernel
  obtain ⟨ready, kept⟩ := Simplifier.ready_of_ofClauses made (by decide) wasOpen
  have logged : start.keepProof.engine.proof = some #[] := rfl
  have readyNow : start.keepProof.engine.Ready := { ready with }
  obtain ⟨steps, proof, replayed⟩ :=
    replay_of_process .equivalences readyNow kept logged ended isOpen
  refine ⟨_, _, status, toolsAfter, after, #[], steps, readyNow, kept, logged, ended, isOpen,
    proof, ?_, replayed⟩
  simpa [proof] using size

end Engine

end CnfSimplifier
